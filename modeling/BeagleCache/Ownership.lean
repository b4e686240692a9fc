import BeagleCache.Delivery
import BeagleCache.Transition

/-! The references in `tmp_ht`. A sender keeps the chunks of its buffers there until they are acknowledged, and a receiver
takes the chunks of its entries out of it. The table counts the references to a name and does not know whose they are. -/

namespace BeagleCache

open Transition Run

/-- A proxy with its user connections and the tables they share. -/
structure Proxy where
  users : List UserConnection
  tmp : TempCache
  hints : HintTable
  table : NameTable

/-- What happens at a proxy: `put` is a body that comes from a peer or from a cache, and `deliver` a name delivery with the
bodies in it. -/
inductive ProxyEvent
  | accept (isForward isHttpProxy : Bool) (key : ConnectionID)
  | read (i : Nat) (data : Bytes)
  | serve (i : Nat) (forceProcess : Bool)
  | ack (i : Nat) (ack : BitVec 32)
  | close (i : Nat) (updateHint : Bool)
  | put (name : Sha1Name) (buffer : Bytes)
  | deliver (pickPeer : Sha1Name → Int) (buffer : Bytes)
  | schedule (i : Nat)
  | reconstruct (i : Nat)

/-- What is done with the connection at `i`, if there is one. -/
def Proxy.withUser (p : Proxy) (i : Nat) (f : UserConnection → Run Proxy) : Run Proxy :=
  match p.users[i]? with
  | some ci => f ci
  | none => .ok p

section Next

variable (cfg : Config) (sha1 : Bytes → Sha1Name) (host : Bytes → Option (BitVec 32 × BitVec 16))

def proxyNext (p : Proxy) : ProxyEvent → Run Proxy
  | .accept isForward isHttpProxy key => do
      let ci ← createUserConnectionInfo cfg isForward
      return { p with users := p.users ++ [{ ci with key := key, isHttpProxy := isHttpProxy }] }
  | .read i data => p.withUser i fun ci => return { p with users := p.users.set i { ci with
      bufRead := ci.bufRead ++ data.take (recvBufsize - ci.bufRead.length) } }
  | .serve i forceProcess => p.withUser i fun ci => do
      let r ← serveUser cfg sha1 (getSendHint p.hints) host forceProcess ci ⟨p.tmp, p.table⟩
      return { p with users := p.users.set i r.ci, tmp := r.sh.tmp, table := r.sh.table }
  | .ack i ack => p.withUser i fun ci => do
      let r ← destroyChunkBufferList ack true ci.chunkBufferList p.tmp p.hints
      return { p with users := p.users.set i { ci with chunkBufferList := r.1 }, tmp := r.2.1, hints := r.2.2 }
  | .close i updateHint => p.withUser i fun ci => do
      let r ← destroyChunkBufferList 0 updateHint ci.chunkBufferList p.tmp p.hints
      return { p with users := p.users.eraseIdx i, tmp := r.2.1, hints := r.2.2 }
  | .put name buffer => do
      let tmp ← refPutChunkCallback cfg sha1 p.tmp name buffer
      return { p with tmp := tmp }
  | .deliver pickPeer buffer => do
      let r ← processNameTreeDelivery2 cfg sha1 pickPeer buffer p.users p.tmp
      return { p with users := r.1, tmp := r.2.1 }
  | .schedule i => p.withUser i fun ci => do
      let ci ← populateILSQueue ci
      return { p with users := p.users.set i ci }
  | .reconstruct i => p.withUser i fun ci => do
      let r ← reconstructOriginalData cfg sha1 ci p.tmp
      return { p with users := p.users.set i r.1, tmp := r.2 }

/-- A proxy from its start on. -/
def proxySystem : System Proxy ProxyEvent :=
  .ofNext (fun p => p.users = [] ∧ p.tmp = emptyTempCache) (proxyNext cfg sha1 host)

end Next

/-- What a step of the proxy does, with the functions that it runs and the connection that it finds. -/
inductive ProxyStep (cfg : Config) (sha1 : Bytes → Sha1Name) (host : Bytes → Option (BitVec 32 × BitVec 16)) (p : Proxy) :
    ProxyEvent → Proxy → Prop
  | accept (isForward isHttpProxy : Bool) (key : ConnectionID) {ci : UserConnection}
      (hnew : createUserConnectionInfo cfg isForward = .ok ci) :
      ProxyStep cfg sha1 host p (.accept isForward isHttpProxy key)
        { p with users := p.users ++ [{ ci with key := key, isHttpProxy := isHttpProxy }] }
  -- no connection is found
  | same (e : ProxyEvent) : ProxyStep cfg sha1 host p e p
  | read (i : Nat) (data : Bytes) {ci : UserConnection} (hci : p.users[i]? = some ci) :
      ProxyStep cfg sha1 host p (.read i data)
        { p with users := p.users.set i { ci with bufRead := ci.bufRead ++ data.take (recvBufsize - ci.bufRead.length) } }
  | serve (i : Nat) (forceProcess : Bool) {ci : UserConnection} {r : UserDataResult} (hci : p.users[i]? = some ci)
      (hserve : serveUser cfg sha1 (getSendHint p.hints) host forceProcess ci ⟨p.tmp, p.table⟩ = .ok r) :
      ProxyStep cfg sha1 host p (.serve i forceProcess) { p with users := p.users.set i r.ci, tmp := r.sh.tmp, table := r.sh.table }
  | ack (i : Nat) (ack : BitVec 32) {ci : UserConnection} {r : List ChunkBuffer × TempCache × HintTable} (hci : p.users[i]? = some ci)
      (hdestroy : destroyChunkBufferList ack true ci.chunkBufferList p.tmp p.hints = .ok r) :
      ProxyStep cfg sha1 host p (.ack i ack)
        { p with users := p.users.set i { ci with chunkBufferList := r.1 }, tmp := r.2.1, hints := r.2.2 }
  | close (i : Nat) (updateHint : Bool) {ci : UserConnection} {r : List ChunkBuffer × TempCache × HintTable}
      (hci : p.users[i]? = some ci) (hdestroy : destroyChunkBufferList 0 updateHint ci.chunkBufferList p.tmp p.hints = .ok r) :
      ProxyStep cfg sha1 host p (.close i updateHint) { p with users := p.users.eraseIdx i, tmp := r.2.1, hints := r.2.2 }
  | put (name : Sha1Name) (buffer : Bytes) {tmp : TempCache} (hput : refPutChunkCallback cfg sha1 p.tmp name buffer = .ok tmp) :
      ProxyStep cfg sha1 host p (.put name buffer) { p with tmp := tmp }
  | deliver (i : Nat) (pickPeer : Sha1Name → Int) (buffer : Bytes) {ci : UserConnection} {numNames : BitVec 32}
      {r : ReassembleInfo × TempCache × Nat} (hci : p.users[i]? = some ci)
      (hnum : readU32 buffer (sizeofWANameDelivery + 1) = .ok numNames)
      (htree : deliverTree cfg sha1 pickPeer buffer numNames.toInt.toNat (sizeofWANameDelivery + sizeofWAOneTree)
        (createNewReassembleInfo ci.seqNo) p.tmp = .ok r) :
      ProxyStep cfg sha1 host p (.deliver pickPeer buffer) { p with
        users := p.users.set i { ci with seqNo := ci.seqNo + 1, reassembleList := ci.reassembleList ++ [checkPeek r.1] }
        tmp := r.2.1 }
  | schedule (i : Nat) {ci : UserConnection} {entries : List ReassembleInfo} (hci : p.users[i]? = some ci)
      (hnames : entries.map ReassembleInfo.nameList = ci.reassembleList.map ReassembleInfo.nameList) :
      ProxyStep cfg sha1 host p (.schedule i) { p with users := p.users.set i { ci with reassembleList := entries } }
  | reconstruct (i : Nat) {ci : UserConnection} {r : Bytes × List ReassembleInfo × TempCache} (hci : p.users[i]? = some ci)
      (hentries : reconstructEntries cfg sha1 ci.reassembleList p.tmp = .ok r) :
      ProxyStep cfg sha1 host p (.reconstruct i) { p with
        users := p.users.set i { ci with reassembleList := r.2.1, sent := ci.sent ++ r.1 }
        tmp := r.2.2 }

section Inversion

variable {cfg : Config} {sha1 : Bytes → Sha1Name} {host : Bytes → Option (BitVec 32 × BitVec 16)} {p p' : Proxy}

/-- What holds whether or not there is a connection at `i`. -/
theorem Proxy.withUser_of {Q : Proxy → Prop} {i : Nat} {f : UserConnection → Run Proxy} (h : Q p)
    (hf : ∀ ci p', p.users[i]? = some ci → f ci = .ok p' → Q p') (hstep : p.withUser i f = .ok p') : Q p' := by
  unfold Proxy.withUser at hstep
  split at hstep
  case h_1 ci hci => exact hf ci p' hci hstep
  case h_2 =>
    cases hstep
    exact h

theorem proxyStep_of_next {e : ProxyEvent} (hstep : proxyNext cfg sha1 host p e = .ok p') : ProxyStep cfg sha1 host p e p' := by
  cases e with
  | accept isForward isHttpProxy key =>
      obtain ⟨ci, hnew, hret⟩ := bind_eq_ok.mp hstep
      cases hret
      exact .accept isForward isHttpProxy key hnew
  | read i data =>
      refine Proxy.withUser_of (.same _) ?_ hstep
      intro ci p' hci hret
      cases hret
      exact .read i data hci
  | serve i forceProcess =>
      refine Proxy.withUser_of (.same _) ?_ hstep
      intro ci p' hci hrun
      obtain ⟨r, hserve, hret⟩ := bind_eq_ok.mp hrun
      cases hret
      exact .serve i forceProcess hci hserve
  | ack i ack =>
      refine Proxy.withUser_of (.same _) ?_ hstep
      intro ci p' hci hrun
      obtain ⟨r, hdestroy, hret⟩ := bind_eq_ok.mp hrun
      cases hret
      exact .ack i ack hci hdestroy
  | close i updateHint =>
      refine Proxy.withUser_of (.same _) ?_ hstep
      intro ci p' hci hrun
      obtain ⟨r, hdestroy, hret⟩ := bind_eq_ok.mp hrun
      cases hret
      exact .close i updateHint hci hdestroy
  | put name buffer =>
      obtain ⟨tmp, hput, hret⟩ := bind_eq_ok.mp hstep
      cases hret
      exact .put name buffer hput
  | deliver pickPeer buffer =>
      obtain ⟨r, hdeliver, hret⟩ := bind_eq_ok.mp hstep
      cases hret
      rcases processNameTreeDelivery2_cases hdeliver with ⟨hsame, htmp⟩ | ⟨i, ci, numNames, r₁, hci, hnum, htree, hset, htmp⟩
      · rw [hsame, htmp]
        exact .same _
      · rw [hset, htmp]
        exact .deliver i pickPeer buffer hci hnum htree
  | schedule i =>
      refine Proxy.withUser_of (.same _) ?_ hstep
      intro ci p' hci hrun
      obtain ⟨ci', hschedule, hret⟩ := bind_eq_ok.mp hrun
      cases hret
      obtain ⟨entries, hnames, rfl⟩ := populateILSQueue_ok hschedule
      exact .schedule i hci hnames
  | reconstruct i =>
      refine Proxy.withUser_of (.same _) ?_ hstep
      intro ci p' hci hrun
      obtain ⟨r, hrec, hret⟩ := bind_eq_ok.mp hrun
      cases hret
      obtain ⟨r₁, hentries, hret⟩ := bind_eq_ok.mp hrec
      cases hret
      exact .reconstruct i hci hentries

end Inversion

/-- The names in the buffers, each as often as it occurs. -/
def bufferNames (list : List ChunkBuffer) : List Sha1Name := list.flatMap fun cb => namesIn cb.chunkList

/-- The names in the buffers of all connections. -/
def heldNames (users : List UserConnection) : List Sha1Name := users.flatMap fun ci => bufferNames ci.chunkBufferList

/-- The names of entries. -/
def entryNames (entries : List ReassembleInfo) : List Sha1Name := entries.flatMap ReassembleInfo.names

/-- For every entries at the head of the list that the table has references for, it has as many besides those of the
buffers. -/
def Proxy.Spare (p : Proxy) : ProxyEvent → Prop
  | .reconstruct i => ∀ ci front rest, p.users[i]? = some ci → ci.reassembleList = front ++ rest →
      (∀ ri ∈ front, ri.getSent = true) → (∀ n, (entryNames front).count n ≤ refs p.tmp n) →
      ∀ n, (heldNames p.users).count n + (entryNames front).count n ≤ refs p.tmp n
  | _ => True

/-- A proxy where the entries that are reconstructed have references of their own. -/
def sparesBuffers (cfg : Config) (sha1 : Bytes → Sha1Name) (host : Bytes → Option (BitVec 32 × BitVec 16)) :
    System Proxy ProxyEvent := (proxySystem cfg sha1 host).restrict Proxy.Spare

/-! ## What the operations do to the counts -/

section Counts

variable {cfg : Config} {sha1 : Bytes → Sha1Name} {hint : Sha1Name → Bool} {host : Bytes → Option (BitVec 32 × BitVec 16)}
  {ci ci' : UserConnection} {sh sh' : Shared} {tmp tmp' : TempCache}

theorem bufferNames_append (a b : List ChunkBuffer) : bufferNames (a ++ b) = bufferNames a ++ bufferNames b := by
  rw [bufferNames, List.flatMap_append]
  rfl

/-- A round takes a reference for every name it puts in a buffer. -/
theorem Round.refs {buffer : Bytes} {one : Nat} {o : Outgoing} (hvalid : ValidCache sh.tmp)
    (h : Round cfg sha1 hint ci buffer sh one o ci' sh') :
    ∃ new, ci'.chunkBufferList = ci.chunkBufferList ++ new ∧ ValidCache sh'.tmp ∧
      ∀ n, refs sh'.tmp n = refs sh.tmp n + (bufferNames new).count n := by
  cases h with
  | raw hraw hmsg => exact ⟨[], (List.append_nil _).symm, hvalid, fun n => rfl⟩
  | first hraw hpre hskip hnum hmsg => exact ⟨[], (List.append_nil _).symm, hvalid, fun n => rfl⟩
  | @names r names low cands names' cb tmp' msg hraw hpre hfirst hblock hput hbuf hmsg =>
      have hpos : ∀ c ∈ cands, 0 < c.length := fun c hc => (Tiling.tiles_mem hblock.selected.tiles hc).2.2
      obtain ⟨hvalid', hrefs⟩ := putTempCacheCandidateList_refs hvalid hpos hput
      refine ⟨[cb], rfl, hvalid', ?_⟩
      intro n
      rw [hrefs n, bufferNames, List.flatMap_singleton, hbuf.chunkList_eq]

theorem Rounds.refs {srcOff : Nat} {r : UserDataResult} (hvalid : ValidCache sh.tmp) (h : Rounds cfg sha1 hint srcOff ci sh r) :
    ∃ new, r.ci.chunkBufferList = ci.chunkBufferList ++ new ∧ ValidCache r.sh.tmp ∧
      ∀ n, refs r.sh.tmp n = refs sh.tmp n + (bufferNames new).count n := by
  induction h with
  | stop srcOff ci sh => exact ⟨[], (List.append_nil _).symm, hvalid, fun n => rfl⟩
  | block hlt hround hfull =>
      have hone := hround.refs hvalid
      exact hone
  | next hlt hround hopen hrest ih =>
      obtain ⟨new, hlist, hvalid₁, hrefs⟩ := hround.refs hvalid
      obtain ⟨more, hmore, hvalid₂, hrefs'⟩ := ih hvalid₁
      refine ⟨new ++ more, ?_, hvalid₂, ?_⟩
      · rw [← List.append_assoc, ← hlist]
        exact hmore
      · intro n
        rw [bufferNames_append, List.count_append, ← Nat.add_assoc, ← hrefs n]
        exact hrefs' n

theorem Served.refs {r : UserDataResult} (hvalid : ValidCache sh.tmp) (h : Served cfg sha1 hint host ci sh r) :
    ∃ new, r.ci.chunkBufferList = ci.chunkBufferList ++ new ∧ ValidCache r.sh.tmp ∧
      ∀ n, refs r.sh.tmp n = refs sh.tmp n + (bufferNames new).count n := by
  cases h with
  | idle _ _ _ hci hsh =>
      rw [hci, hsh]
      exact ⟨[], (List.append_nil _).symm, hvalid, fun n => rfl⟩
  | @sent ci₀ r₀ hopened _ _ hrounds _ _ _ hsh hci =>
      obtain ⟨line, hframe⟩ := opened_frame hopened
      obtain ⟨new, hlist, hvalid', hrefs⟩ := hrounds.refs hvalid
      rw [hci, hsh, (finish_frame r₀).2.2.2.2]
      refine ⟨new, ?_, hvalid', hrefs⟩
      show r₀.ci.chunkBufferList = _
      rw [hlist, hframe]

theorem destroyChunkBuffer2_ok {cb : ChunkBuffer} {updateHint : Bool} {hints : HintTable} {r : TempCache × HintTable}
    (h : destroyChunkBuffer2 cb updateHint tmp hints = .ok r) : flushCandidates cb.chunkList tmp = .ok r.1 := by
  obtain ⟨_, -, h⟩ := bind_eq_ok.mp h
  obtain ⟨tmp₁, hflush, h⟩ := bind_eq_ok.mp h
  simp only at h
  split at h
  · obtain ⟨hints₁, -, hret⟩ := bind_eq_ok.mp h
    cases hret
    exact hflush
  · cases h
    exact hflush

/-- `DestroyChunkBufferList` drops a reference for every name of the buffers it destroys, which are the first ones. -/
theorem destroyChunkBufferList_refs {ack : BitVec 32} {updateHint : Bool} {list : List ChunkBuffer} {hints : HintTable}
    {r : List ChunkBuffer × TempCache × HintTable} (hvalid : ValidCache tmp)
    (h : destroyChunkBufferList ack updateHint list tmp hints = .ok r) :
    ∃ gone, list = gone ++ r.1 ∧ ValidCache r.2.1 ∧ ∀ n, refs r.2.1 n + (bufferNames gone).count n = refs tmp n := by
  induction list generalizing tmp hints with
  | nil =>
      cases h
      exact ⟨[], rfl, hvalid, fun n => rfl⟩
  | cons cb rest ih =>
      rw [destroyChunkBufferList] at h
      split at h
      · obtain ⟨r₁, hdestroy, h⟩ := bind_eq_ok.mp h
        obtain ⟨hvalid₁, hrefs₁⟩ := flushCandidates_refs hvalid (destroyChunkBuffer2_ok hdestroy)
        obtain ⟨gone, hgone, hvalid', hrefs⟩ := ih hvalid₁ h
        refine ⟨cb :: gone, by rw [List.cons_append, ← hgone], hvalid', ?_⟩
        intro n
        have h1 := hrefs n
        have h2 := hrefs₁ n
        rw [bufferNames, List.flatMap_cons, List.count_append, ← bufferNames]
        omega
      · cases h
        exact ⟨[], rfl, hvalid, fun n => rfl⟩

theorem refPutChunkCallback_refs {name : Sha1Name} {buffer : Bytes} (hvalid : ValidCache tmp)
    (h : refPutChunkCallback cfg sha1 tmp name buffer = .ok tmp') : ValidCache tmp' ∧ ∀ n, refs tmp n ≤ refs tmp' n := by
  rcases refPut_cases hvalid h with ⟨-, rfl⟩ | ⟨-, hvalid', hadd⟩
  · exact ⟨hvalid, fun n => le_refl _⟩
  · refine ⟨hvalid', ?_⟩
    intro n
    rw [hadd.refs_eq n]
    exact Nat.le_add_right _ _

/-- The bodies in a delivery add references. -/
theorem deliverTree_refs {pickPeer : Sha1Name → Int} {buffer : Bytes} {num offset : Nat} {ri : ReassembleInfo}
    {r : ReassembleInfo × TempCache × Nat} (hvalid : ValidCache tmp)
    (h : deliverTree cfg sha1 pickPeer buffer num offset ri tmp = .ok r) :
    ValidCache r.2.1 ∧ ∀ n, refs tmp n ≤ refs r.2.1 n := by
  induction num generalizing offset ri tmp with
  | zero =>
      cases h
      exact ⟨hvalid, fun n => le_refl _⟩
  | succ num ih =>
      obtain ⟨c, -, h⟩ := bind_eq_ok.mp h
      obtain ⟨r₁, hone, h⟩ := bind_eq_ok.mp h
      have hfirst : ValidCache r₁.2 ∧ ∀ n, refs tmp n ≤ refs r₁.2 n := by
        rcases (deliverChunk_ok hone).2 with hsame | ⟨content, -, hput⟩
        · rw [hsame]
          exact ⟨hvalid, fun n => le_refl _⟩
        · exact refPutChunkCallback_refs hvalid hput
      obtain ⟨hvalid', hrefs⟩ := ih hfirst.1 h
      exact ⟨hvalid', fun n => (hfirst.2 n).trans (hrefs n)⟩

end Counts

/-! ## Runs -/

/-- The table has a reference for every name in a buffer. -/
structure Proxy.Owned (p : Proxy) : Prop where
  valid : ValidCache p.tmp
  owned : ∀ n, (heldNames p.users).count n ≤ refs p.tmp n
  ready : ∀ ci ∈ p.users, ci.ChunkReady

namespace Proxy

variable {cfg : Config} {sha1 : Bytes → Sha1Name} {host : Bytes → Option (BitVec 32 × BitVec 16)} {p p' : Proxy} {i : Nat}
  {ci ci' : UserConnection} {tmp : TempCache}

/-- The names in the buffers of the connections without the one at `i`. -/
def othersHeld (p : Proxy) (i : Nat) : List Sha1Name := heldNames (p.users.eraseIdx i)

theorem held_eq (hci : p.users[i]? = some ci) (n : Sha1Name) :
    (heldNames p.users).count n = (bufferNames ci.chunkBufferList).count n + (p.othersHeld i).count n := by
  obtain ⟨hi, rfl⟩ := List.getElem?_eq_some_iff.mp hci
  have hperm := (List.getElem_cons_eraseIdx_perm hi).flatMap_right fun ci => bufferNames ci.chunkBufferList
  rw [heldNames, ← hperm.count_eq, List.flatMap_cons, List.count_append]
  rfl

theorem held_set (hci : p.users[i]? = some ci) (ci' : UserConnection) (n : Sha1Name) :
    (heldNames (p.users.set i ci')).count n = (bufferNames ci'.chunkBufferList).count n + (p.othersHeld i).count n := by
  obtain ⟨hi, -⟩ := List.getElem?_eq_some_iff.mp hci
  have hperm := (List.set_perm_cons_eraseIdx hi ci').flatMap_right fun ci => bufferNames ci.chunkBufferList
  rw [heldNames, hperm.count_eq, List.flatMap_cons, List.count_append]
  rfl

/-- A connection changes, and the counts with its buffers. -/
theorem Owned.set (h : p.Owned) (hci : p.users[i]? = some ci) (hready : ci'.ChunkReady) (hvalid : ValidCache tmp)
    (hrefs : ∀ n, (bufferNames ci'.chunkBufferList).count n + refs p.tmp n ≤ (bufferNames ci.chunkBufferList).count n + refs tmp n)
    (hints : HintTable) (table : NameTable) : Owned ⟨p.users.set i ci', tmp, hints, table⟩ where
  valid := hvalid
  owned := by
    intro n
    have howned := h.owned n
    have hchange := hrefs n
    rw [held_eq hci] at howned
    show (heldNames (p.users.set i ci')).count n ≤ refs tmp n
    rw [held_set hci]
    omega
  ready := by
    intro u hu
    rcases List.mem_or_eq_of_mem_set hu with hold | rfl
    · exact h.ready u hold
    · exact hready

theorem Owned.ready_at (h : p.Owned) (hci : p.users[i]? = some ci) : ci.ChunkReady := h.ready ci (List.mem_of_getElem? hci)

theorem Owned.accept {isForward : Bool} (h : p.Owned) (hnew : createUserConnectionInfo cfg isForward = .ok ci) (key : ConnectionID)
    (isHttpProxy : Bool) : Owned { p with users := p.users ++ [{ ci with key := key, isHttpProxy := isHttpProxy }] } := by
  obtain ⟨hready, hframe⟩ := createUserConnectionInfo_ok hnew
  have hnone : ci.chunkBufferList = [] := by rw [hframe]
  refine ⟨h.valid, ?_, ?_⟩
  · intro n
    have hheld : heldNames (p.users ++ [{ ci with key := key, isHttpProxy := isHttpProxy }]) = heldNames p.users := by
      rw [heldNames, List.flatMap_append, List.flatMap_singleton, hnone]
      exact List.append_nil _
    show (heldNames (p.users ++ [_])).count n ≤ _
    rw [hheld]
    exact h.owned n
  · intro u hu
    rcases List.mem_append.mp hu with hold | hlast
    · exact h.ready u hold
    · rw [List.mem_singleton.mp hlast]
      exact hready

theorem Owned.close (h : p.Owned) (hci : p.users[i]? = some ci) (hvalid : ValidCache tmp)
    (hrefs : ∀ n, refs tmp n + (bufferNames ci.chunkBufferList).count n = refs p.tmp n) (hints : HintTable) :
    Owned { p with users := p.users.eraseIdx i, tmp := tmp, hints := hints } where
  valid := hvalid
  owned := by
    intro n
    have howned := h.owned n
    have hchange := hrefs n
    rw [held_eq hci] at howned
    show (p.othersHeld i).count n ≤ refs tmp n
    omega
  ready := fun u hu => h.ready u (List.mem_of_mem_eraseIdx hu)

/-- `DestroyChunkBufferList` with no acknowledgement destroys all buffers. -/
theorem destroyAll {updateHint : Bool} {list : List ChunkBuffer} {hints : HintTable} {r : List ChunkBuffer × TempCache × HintTable}
    (h : destroyChunkBufferList 0 updateHint list tmp hints = .ok r) : r.1 = [] := by
  induction list generalizing tmp hints with
  | nil =>
      cases h
      rfl
  | cons cb rest ih =>
      rw [destroyChunkBufferList, if_pos (.inl rfl)] at h
      obtain ⟨r₁, -, h⟩ := bind_eq_ok.mp h
      exact ih h

/-- Every step keeps the references of the buffers, where a reconstruction has its own. -/
theorem proxyNext_owned (hcfg : cfg.Sized) {e : ProxyEvent} (h : p.Owned) (hspare : p.Spare e)
    (hstep : proxyNext cfg sha1 host p e = .ok p') : p'.Owned := by
  cases proxyStep_of_next hstep with
  | accept isForward isHttpProxy key hnew => exact h.accept hnew key isHttpProxy
  | same => exact h
  | read i data hci =>
      have hready := h.ready_at hci
      refine h.set hci ?_ h.valid ?_ p.hints p.table
      · exact hready
      · exact fun n => le_refl _
  | @serve i forceProcess ci r hci hserve =>
      have hserved := serveUser_served hcfg (h.ready_at hci) hserve
      obtain ⟨new, hlist, hvalid, hrefs⟩ := hserved.refs h.valid
      refine h.set hci (hserved.ready hcfg (h.ready_at hci)) hvalid ?_ p.hints r.sh.table
      intro n
      rw [hlist, bufferNames_append, List.count_append, hrefs n]
      show _ + _ + refs p.tmp n ≤ _ + (refs p.tmp n + _)
      omega
  | @ack i ack ci r hci hdestroy =>
      obtain ⟨gone, hgone, hvalid, hrefs⟩ := destroyChunkBufferList_refs h.valid hdestroy
      have hready := h.ready_at hci
      refine h.set hci ?_ hvalid ?_ r.2.2 p.table
      · exact hready
      · intro n
        have hcount := hrefs n
        rw [hgone, bufferNames_append, List.count_append]
        show (bufferNames r.1).count n + _ ≤ _
        omega
  | @close i updateHint ci r hci hdestroy =>
      obtain ⟨gone, hgone, hvalid, hrefs⟩ := destroyChunkBufferList_refs h.valid hdestroy
      rw [destroyAll hdestroy, List.append_nil] at hgone
      rw [← hgone] at hrefs
      exact h.close hci hvalid hrefs r.2.2
  | put name buffer hput =>
      obtain ⟨hvalid, hrefs⟩ := refPutChunkCallback_refs h.valid hput
      exact ⟨hvalid, fun n => (h.owned n).trans (hrefs n), h.ready⟩
  | deliver i pickPeer buffer hci hnum htree =>
      obtain ⟨hvalid, hrefs⟩ := deliverTree_refs h.valid htree
      have hready := h.ready_at hci
      refine h.set hci ?_ hvalid ?_ p.hints p.table
      · exact hready
      · exact fun n => Nat.add_le_add_left (hrefs n) _
  | schedule i hci hnames =>
      have hready := h.ready_at hci
      refine h.set hci ?_ h.valid ?_ p.hints p.table
      · exact hready
      · exact fun n => le_refl _
  | @reconstruct i ci r hci hentries =>
      obtain ⟨front, hfront, hall, hvalid, hrefs⟩ := reconstructEntries_refs h.valid hentries
      have hroom := hspare ci front r.2.1 hci hfront (fun ri hri => (hall ri hri).1) (by
        intro n
        rw [← hrefs n]
        exact Nat.le_add_left _ _)
      have hready := h.ready_at hci
      refine ⟨hvalid, ?_, ?_⟩
      · intro n
        have hcount := hrefs n
        have hspared := hroom n
        rw [held_eq hci, entryNames] at hspared
        show (heldNames (p.users.set i _)).count n ≤ refs r.2.2 n
        rw [held_set hci]
        show (bufferNames ci.chunkBufferList).count n + _ ≤ _
        omega
      · intro u hu
        rcases List.mem_or_eq_of_mem_set hu with hold | rfl
        · exact h.ready u hold
        · exact hready

theorem sparesBuffers_owned (hcfg : cfg.Sized) : (sparesBuffers cfg sha1 host).Invariant Owned where
  init := by
    rintro p ⟨husers, htmp⟩
    refine ⟨?_, ?_, ?_⟩
    · rw [htmp]
      exact validCache_empty
    · intro n
      rw [husers]
      exact Nat.zero_le _
    · rw [husers]
      exact fun ci hci => nomatch hci
  step := fun _ _ _ h hstep => proxyNext_owned hcfg h hstep.1 hstep.2

end Proxy

/-- In every run where the entries that are reconstructed have references of their own: the table counts every name at least
as often as the buffers hold it, `DestroyChunkBuffer2` finds all the chunks of the buffers it destroys, and a request for a
chunk of a buffer finds it. -/
theorem buffers_owned {cfg : Config} {sha1 : Bytes → Sha1Name} {host : Bytes → Option (BitVec 32 × BitVec 16)} (hcfg : cfg.Sized)
    {events : List ProxyEvent} {p : Proxy} (hrun : (sparesBuffers cfg sha1 host).Runs events p) :
    (∀ n, (heldNames p.users).count n ≤ refs p.tmp n) ∧
      (∀ ci ∈ p.users, ∀ gone kept, ci.chunkBufferList = gone ++ kept →
        ∃ tmp, flushCandidates (gone.flatMap ChunkBuffer.chunkList) p.tmp = .ok tmp) ∧
      ∀ ci ∈ p.users, ∀ cb ∈ ci.chunkBufferList, ∀ c ∈ cb.chunkList, ∃ value, searchCache p.tmp c.sha1name = some value := by
  have h := (Proxy.sparesBuffers_owned hcfg).holds hrun
  have hci : ∀ ci ∈ p.users, ∀ n, (bufferNames ci.chunkBufferList).count n ≤ refs p.tmp n := by
    intro ci hmem n
    obtain ⟨i, hi⟩ := List.getElem?_of_mem hmem
    have howned := h.owned n
    rw [Proxy.held_eq hi] at howned
    omega
  refine ⟨h.owned, ?_, ?_⟩
  · intro ci hmem gone kept hsplit
    rw [flushCandidates_iff h.valid]
    intro n
    have hcount := hci ci hmem n
    rw [hsplit, bufferNames_append, List.count_append] at hcount
    have hnames : namesIn (gone.flatMap ChunkBuffer.chunkList) = bufferNames gone := by
      rw [namesIn, List.map_flatMap]
      rfl
    rw [hnames]
    omega
  · intro ci hmem cb hcb c hc
    apply (refs_pos_iff h.valid).mp
    have hname : c.sha1name ∈ bufferNames ci.chunkBufferList :=
      List.mem_flatMap_of_mem hcb (List.mem_map_of_mem hc)
    exact (List.count_pos_iff.mpr hname).trans_le (hci ci hmem _)

/-- A second connection of the proxy. -/
def otherConn : ConnectionID := ⟨0x0a000003, 5001, 0x0a000002, 80⟩

/-- The first chunk of the sample. -/
def sampleChunk : Bytes := sampleData.take 31

/-- A name delivery for the second connection, with the first chunk of the sample in it or only with its name. -/
def sampleDelivery (content : Option Bytes) : Bytes :=
  (ControlMessage.nameDelivery otherConn.reverse [⟨calcSHA1Sig sampleChunk, 31, content⟩]).bytes

/-- The first connection sends the sample, and the second one gets its first chunk. -/
def sampleExchange (content : Option Bytes) : List ProxyEvent :=
  [.accept true false sampleConn, .accept true false otherConn, .read 0 sampleData, .serve 0 true,
    .deliver (fun _ => 0) (sampleDelivery content), .schedule 1]

def emptyProxy : Proxy := ⟨[], emptyTempCache, ⟨[], []⟩, default⟩

/-- The exchange, and then the reconstruction of what the second connection got. -/
def sampleReconstruct (content : Option Bytes) : Run (Proxy × Proxy) := do
  let p ← (sampleExchange content).foldlM (proxyNext sampleConfig calcSHA1Sig fun _ => none) emptyProxy
  let p' ← proxyNext sampleConfig calcSHA1Sig (fun _ => none) p (.reconstruct 1)
  return (p, p')

/-- The names of the chunks of the sample. -/
def sampleHeld : List Sha1Name :=
  [calcSHA1Sig sampleChunk, calcSHA1Sig ((sampleData.drop 31).take 2), calcSHA1Sig ((sampleData.drop 33).take 7)]

theorem sampleExchange_runs {content : Option Bytes} {p p' : Proxy} (h : sampleReconstruct content = .ok (p, p')) :
    (proxySystem sampleConfig calcSHA1Sig fun _ => none).Runs (sampleExchange content) p ∧
      proxyNext sampleConfig calcSHA1Sig (fun _ => none) p (.reconstruct 1) = .ok p' := by
  obtain ⟨p₁, hfold, h⟩ := bind_eq_ok.mp h
  obtain ⟨p₂, hrec, hret⟩ := bind_eq_ok.mp h
  cases hret
  have hstart : (proxySystem sampleConfig calcSHA1Sig fun _ => none).Runs [] emptyProxy := .start ⟨rfl, rfl⟩
  exact ⟨System.runs_foldlM hstart hfold, hrec⟩

/-- The second connection gets the chunk with its name, so that there is a reference for both. -/
theorem buffers_owned_sample : ∃ p, (sparesBuffers sampleConfig calcSHA1Sig fun _ => none).Runs
    (sampleExchange (some sampleChunk) ++ [.reconstruct 1]) p ∧ p.users.map UserConnection.sent = [[], sampleChunk] ∧
      ∀ n, (heldNames p.users).count n ≤ refs p.tmp n := by
  obtain ⟨⟨p, p'⟩, hrun, hlook⟩ := @Run.exists_of_map _ _ (sampleReconstruct (some sampleChunk))
    (fun r => (heldNames r.1.users, sampleHeld.map (refs r.1.tmp), r.1.users.map (fun ci => entryNames ci.reassembleList),
      r.2.users.map UserConnection.sent))
    (sampleHeld, [2, 1, 1], [[], [calcSHA1Sig sampleChunk]], [[], sampleChunk]) (by decide +kernel)
  simp only [Prod.mk.injEq] at hlook
  obtain ⟨hheld, hrefs, hentries, hsent⟩ := hlook
  obtain ⟨hrun, hrec⟩ := sampleExchange_runs hrun
  have hbefore : (sparesBuffers sampleConfig calcSHA1Sig fun _ => none).Runs (sampleExchange (some sampleChunk)) p := by
    apply hrun.restrict
    intro e he s
    simp only [sampleExchange, List.mem_cons, List.not_mem_nil, or_false] at he
    rcases he with rfl | rfl | rfl | rfl | rfl | rfl <;> trivial
  have hspare : p.Spare (.reconstruct 1) := by
    intro ci front rest hci hsplit _ _ n
    have hnames : entryNames ci.reassembleList = [calcSHA1Sig sampleChunk] := by
      have := congrArg (fun l : List (List Sha1Name) => l[1]?) hentries
      simpa [hci] using this
    have hfront : (entryNames front).count n ≤ [calcSHA1Sig sampleChunk].count n := by
      rw [← hnames, hsplit, entryNames, entryNames, List.flatMap_append, List.count_append]
      exact Nat.le_add_right _ _
    have hroom : sampleHeld.count n + [calcSHA1Sig sampleChunk].count n ≤ refs p.tmp n := by
      by_cases hn : n ∈ sampleHeld
      · rw [sampleHeld, List.map_cons, List.map_cons, List.map_cons, List.map_nil] at hrefs
        simp only [List.cons.injEq, and_true] at hrefs
        obtain ⟨h1, h2, h3⟩ := hrefs
        simp only [sampleHeld, List.mem_cons, List.not_mem_nil, or_false] at hn
        rcases hn with rfl | rfl | rfl
        · rw [h1]
          decide +kernel
        · rw [h2]
          decide +kernel
        · rw [h3]
          decide +kernel
      · have hother : n ∉ [calcSHA1Sig sampleChunk] := by
          intro hmem
          rw [List.mem_singleton] at hmem
          exact hn (hmem ▸ List.mem_cons_self)
        rw [List.count_eq_zero_of_not_mem hn, List.count_eq_zero_of_not_mem hother]
        exact Nat.zero_le _
    rw [hheld]
    omega
  have hrun' := hbefore.step ⟨hspare, hrec⟩
  exact ⟨p', hrun', hsent, (buffers_owned sampleConfig_sized hrun').1⟩

/-- The second connection gets the name alone and takes the chunk of the first one. The acknowledgement of the first
connection then finds no chunk to flush. -/
theorem sender_reference_taken : ∃ events p ci, (proxySystem sampleConfig calcSHA1Sig fun _ => none).Runs events p ∧
    p.users[0]? = some ci ∧ calcSHA1Sig sampleChunk ∈ bufferNames ci.chunkBufferList ∧ searchCache p.tmp (calcSHA1Sig sampleChunk) = none ∧
    destroyChunkBufferList 33 true ci.chunkBufferList p.tmp p.hints = .error .assertion := by
  obtain ⟨⟨p, p'⟩, hrun, hlook⟩ := @Run.exists_of_map _ _ (sampleReconstruct none)
    (fun r => (r.2.users.map (fun ci => (bufferNames ci.chunkBufferList,
      match destroyChunkBufferList 33 true ci.chunkBufferList r.2.tmp r.2.hints with
      | .error f => some f
      | .ok _ => none)), searchCache r.2.tmp (calcSHA1Sig sampleChunk)))
    ([(sampleHeld, some .assertion), ([], none)], none) (by decide +kernel)
  simp only [Prod.mk.injEq] at hlook
  obtain ⟨husers, hgone⟩ := hlook
  obtain ⟨hrun, hrec⟩ := sampleExchange_runs hrun
  obtain ⟨ci, rest, hlist, hfirst, -⟩ := List.map_eq_cons_iff.mp husers
  simp only [Prod.mk.injEq] at hfirst
  obtain ⟨hnames, hdestroy⟩ := hfirst
  refine ⟨_, p', ci, hrun.step hrec, ?_, ?_, hgone, ?_⟩
  · rw [hlist]
    rfl
  · rw [hnames]
    exact List.mem_cons_self
  · split at hdestroy
    case h_1 f hf =>
      rw [hf, Option.some.inj hdestroy]
    case h_2 => cases hdestroy

end BeagleCache

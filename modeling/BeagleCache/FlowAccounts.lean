import BeagleCache.SourceAccounts

/-! The accounts of a direction. The counters of the source, the acknowledgements on their way and the bytes that wait at the
destination are parts of one sum, the bytes that the source sent. -/

namespace BeagleCache

open Transition Wrapping Run

/-- Where the data of the buffers ends that are not acknowledged. -/
def Direction.pendingEnds (d : Direction) : List Nat := (bufferEnds 0 d.out).filter fun e => d.acked < e

/-- The bytes that are not acknowledged. -/
def Direction.outstanding (d : Direction) : Nat := d.bytes - d.acked

/-- The bytes of the entries that are not reconstructed. -/
def waitingBytes (entries : List ReassembleInfo) : Nat :=
  (entries.map fun ri => (ri.nameList.map ChunkNameInfo.length).sum).sum

namespace Direction

/-- The source: its counters, its window and its buffers. -/
structure Sending (cfg : Config) (sha1 : Bytes → Sha1Name) (d : Direction) : Prop where
  announced : ∀ o ∈ d.out, Announced cfg sha1 o
  ready : d.src.ci.ChunkReady
  bufRead_le : d.src.ci.bufRead.length ≤ recvBufsize
  window_eq : d.src.ci.maxWindowSize = BitVec.ofNat 32 maxWindow
  bytesTX_eq : d.src.ci.bytesTX = BitVec.ofNat 32 d.bytes
  lastAcked_eq : d.src.lastAcked = BitVec.ofNat 32 d.acked
  numSent_eq : d.src.ci.numSent = BitVec.ofNat 32 d.outstanding
  acked_le : d.acked ≤ d.bytes
  status_cases : d.src.ci.status = .active ∨ d.src.ci.status = .block
  active_open : d.src.ci.status = .active → 5 * d.outstanding ≤ 4 * maxWindow
  last_le : ∀ front o, d.out = front ++ [o] → 5 * d.outstanding ≤ 4 * maxWindow + 5 * o.block.length
  buffers : List.Forall₂ EndsAt d.src.ci.chunkBufferList d.pendingEnds

/-- The acknowledgements: each is of more bytes than the one before, and of no more than were written. -/
structure Acknowledging (d : Direction) : Prop where
  increasing : (d.acked :: d.acks.map NameAck.written).Pairwise (· < ·)
  acked_le : d.acked ≤ d.queue.told
  acks_le : ∀ a ∈ d.acks, a.written ≤ d.queue.told
  ack_eq : ∀ a ∈ d.acks, a.ack = BitVec.ofNat 32 a.written
  bytesRX_eq : d.dst.bytesRX = BitVec.ofNat 32 d.queue.told

/-- The destination, with `extra` bytes on their way to `SendData`: what is gone, what waits for the user and what waits
for its chunks was delivered. -/
structure Receiving (extra : Nat) (d : Direction) : Prop where
  window_eq : d.queue.window = some maxWindow
  accounts : ∃ done, WriteQueue.Accounted done d.queue ∧ WriteQueue.Told done d.queue ∧
    d.queue.told ≤ (done.map List.length).sum ∧
    (done.map List.length).sum + d.queue.lenWrite + waitingBytes d.dst.ci.reassembleList + extra ≤
      blockBytes (d.out.take d.delivered)

structure Balanced (cfg : Config) (sha1 : Bytes → Sha1Name) (extra : Nat) (d : Direction) : Prop where
  sending : d.Sending cfg sha1
  acknowledging : d.Acknowledging
  receiving : d.Receiving extra

variable {cfg : Config} {sha1 : Bytes → Sha1Name} {hint : Sha1Name → Bool} {host : Bytes → Option (BitVec 32 × BitVec 16)}
  {d : Direction} {extra : Nat}

theorem blockBytes_take_le (out : List Outgoing) (n : Nat) : blockBytes (out.take n) ≤ blockBytes out := by
  conv_rhs => rw [← List.take_append_drop n out, blockBytes_append]
  exact Nat.le_add_right _ _

/-- There is never more outstanding than the window and a message. -/
theorem Sending.outstanding_le (h : d.Sending cfg sha1) : 5 * d.outstanding ≤ 4 * maxWindow + 5 * recvBufsize := by
  rcases List.eq_nil_or_concat d.out with hnil | ⟨front, o, hout⟩
  · have hzero : d.outstanding = 0 := by rw [outstanding, bytes, hnil, blockBytes_nil, Nat.zero_sub]
    omega
  · rw [List.concat_eq_append] at hout
    have hlast := h.last_le front o hout
    have hmem : o ∈ d.out := by
      rw [hout]
      exact List.mem_append_right _ List.mem_cons_self
    have hlen := (h.announced o hmem).block_length.2
    omega

theorem Sending.outstanding_lt (h : d.Sending cfg sha1) : d.outstanding + recvBufsize < maxWindow := by
  have hle := h.outstanding_le
  simp only [maxWindow, recvBufsize, minRabinBufsize] at hle ⊢
  omega

/-- What was written or waits to be is outstanding. -/
theorem Balanced.queued_le (h : d.Balanced cfg sha1 extra) : d.queue.told ≤ d.bytes ∧ d.queue.lenWrite + extra ≤ d.outstanding := by
  obtain ⟨done, -, -, htold, hsum⟩ := h.receiving.accounts
  have hle := h.acknowledging.acked_le
  have htake := blockBytes_take_le d.out d.delivered
  unfold outstanding bytes
  omega

/-! ## The start -/

theorem newDirection_balanced (h : StartsDirection cfg d) : d.Balanced cfg sha1 0 := by
  obtain ⟨forward, forward', src, dst, srcKey, dstKey, isHttpProxy, hsrc, hdst, rfl⟩ := h
  obtain ⟨hready, heq⟩ := createUserConnectionInfo_ok hsrc
  obtain ⟨-, heq'⟩ := createUserConnectionInfo_ok hdst
  refine ⟨⟨?_, hready, ?_, ?_, ?_, rfl, ?_, le_refl _, ?_, ?_, ?_, ?_⟩, ⟨?_, le_refl _, ?_, ?_, rfl⟩, ⟨rfl, [], ?_, ?_, ?_, ?_⟩⟩
  · exact fun o ho => nomatch ho
  · show src.bufRead.length ≤ recvBufsize
    rw [heq]
    exact Nat.zero_le _
  · show src.maxWindowSize = _
    rw [heq]
  · show src.bytesTX = _
    rw [heq]
    rfl
  · show src.numSent = _
    rw [heq]
    rfl
  · show src.status = .active ∨ _
    rw [heq]
    exact .inl rfl
  · exact fun _ => Nat.zero_le _
  · intro front o hout
    exact absurd hout.symm (List.append_ne_nil_of_right_ne_nil _ (List.cons_ne_nil o []))
  · show List.Forall₂ EndsAt src.chunkBufferList []
    rw [heq]
    exact .nil
  · exact List.pairwise_singleton _ _
  · exact fun a ha => nomatch ha
  · exact fun a ha => nomatch ha
  · exact WriteQueue.newWriteQueue_accounted _
  · exact fun _ => rfl
  · exact le_refl _
  · show 0 + 0 + waitingBytes dst.reassembleList + 0 ≤ 0
    rw [heq']
    exact le_refl _

/-! ## The source -/

theorem Sending.read (h : d.Sending cfg sha1) (data : Bytes) :
    Sending cfg sha1 { d with src := { d.src with
      ci := { d.src.ci with bufRead := d.src.ci.bufRead ++ data.take (recvBufsize - d.src.ci.bufRead.length) } } } := by
  have hle := h.bufRead_le
  refine ⟨h.announced, h.ready, ?_, h.window_eq, h.bytesTX_eq, h.lastAcked_eq, h.numSent_eq, h.acked_le, h.status_cases,
    h.active_open, h.last_le, h.buffers⟩
  show (d.src.ci.bufRead ++ data.take (recvBufsize - d.src.ci.bufRead.length)).length ≤ recvBufsize
  rw [List.length_append, List.length_take]
  omega

theorem Sending.serve (hcfg : cfg.Sized) (h : d.Sending cfg sha1) {forceProcess : Bool} {sh : Shared} {r : UserDataResult}
    (hserve : serveUser cfg sha1 hint host forceProcess d.src.ci sh = .ok r) :
    Sending cfg sha1 { d with src := { d.src with ci := r.ci }, out := d.out ++ r.out } := by
  have hserved := serveUser_served hcfg h.ready hserve
  have hwindow : d.src.ci.maxWindowSize.toNat = maxWindow := by
    rw [h.window_eq]
    rfl
  have hsmall : d.outstanding + recvBufsize < 2 ^ 32 := h.outstanding_lt.trans (by decide)
  obtain ⟨hsends, hbuf, hactive⟩ := hserved.sends hcfg h.ready h.bufRead_le h.status_cases h.numSent_eq hsmall
  have hacked := h.acked_le
  have hbytes : blockBytes (d.out ++ r.out) = d.bytes + blockBytes r.out := blockBytes_append _ _
  have hmore : blockBytes (d.out ++ r.out) - d.acked = d.outstanding + blockBytes r.out := by
    rw [hbytes, outstanding]
    omega
  refine ⟨?_, hserved.ready hcfg h.ready, hbuf, hsends.window_eq.trans h.window_eq, ?_, h.lastAcked_eq, ?_, ?_, ?_, ?_, ?_, ?_⟩
  · intro o ho
    rcases List.mem_append.mp ho with hold | hnew
    · exact h.announced o hold
    · exact hsends.announced o hnew
  · show r.ci.bytesTX = BitVec.ofNat 32 (blockBytes (d.out ++ r.out))
    rw [hsends.bytesTX_eq, h.bytesTX_eq, hbytes, BitVec.ofNat_add]
  · show r.ci.numSent = BitVec.ofNat 32 (blockBytes (d.out ++ r.out) - d.acked)
    rw [hmore]
    exact hsends.numSent_eq
  · show d.acked ≤ blockBytes (d.out ++ r.out)
    omega
  · show r.ci.status = .active ∨ r.ci.status = .block
    rw [hsends.status_eq]
    split
    · exact .inr rfl
    · exact h.status_cases
  · intro hstatus
    show 5 * (blockBytes (d.out ++ r.out) - d.acked) ≤ _
    replace hstatus : r.ci.status = .active := hstatus
    rw [hsends.status_eq] at hstatus
    rw [hmore]
    split at hstatus
    · cases hstatus
    case isFalse hblocked =>
      by_cases hnil : r.out = []
      · rw [hnil, blockBytes_nil]
        exact h.active_open hstatus
      · have := hsends.open_after (Bool.eq_false_iff.mpr hblocked) hnil
        rwa [hwindow] at this
  · intro front o hout
    show 5 * (blockBytes (d.out ++ r.out) - d.acked) ≤ _
    replace hout : d.out ++ r.out = front ++ [o] := hout
    rw [hmore]
    rcases List.eq_nil_or_concat r.out with hnil | ⟨new, p, hnew⟩
    · rw [hnil, List.append_nil] at hout
      rw [hnil, blockBytes_nil]
      exact h.last_le front o hout
    · rw [List.concat_eq_append] at hnew
      rw [hnew, ← List.append_assoc] at hout
      obtain ⟨rfl, hp⟩ := List.append_inj' hout rfl
      cases hp
      have hopen : 5 * (d.outstanding + blockBytes new) ≤ 4 * maxWindow := by
        by_cases hnil : new = []
        · rw [hnil, blockBytes_nil]
          exact h.active_open (hactive (by rw [hnew]; exact List.append_ne_nil_of_right_ne_nil _ (List.cons_ne_nil o [])))
        · have := hsends.open_before new o hnew hnil
          rwa [hwindow] at this
      rw [hnew, blockBytes_append, blockBytes_cons, blockBytes_nil]
      omega
  · obtain ⟨new, hlist, hends⟩ := hsends.buffers
    have hnew := hends d.bytes h.bytesTX_eq
    have hlate : (bufferEnds d.bytes r.out).filter (fun e => d.acked < e) = bufferEnds d.bytes r.out := by
      rw [List.filter_eq_self]
      intro e he
      have := (lt_of_mem_bufferEnds (fun o ho => (hsends.announced o ho).block_length.1) he).1
      simp only [decide_eq_true_iff]
      omega
    show List.Forall₂ EndsAt r.ci.chunkBufferList ((bufferEnds 0 (d.out ++ r.out)).filter fun e => d.acked < e)
    rw [hlist, bufferEnds_append, Nat.zero_add, List.filter_append]
    apply List.rel_append h.buffers
    rw [show blockBytes d.out = d.bytes from rfl, hlate]
    exact hnew

/-- The assertions of `ProcessNameAck` on an acknowledgement of `a` bytes hold exactly when the count did not overflow since
the last one. -/
theorem Sending.checks_iff {a : Nat} (h : d.Sending cfg sha1) (hlt : d.acked < a) (hle : a ≤ d.bytes) :
    (d.src.lastAcked ≤ BitVec.ofNat 32 a ∧ BitVec.ofNat 32 a ≤ d.src.ci.bytesTX) ↔ SameEpoch 32 d.acked d.bytes := by
  have hnear : d.bytes - d.acked < 2 ^ 32 := lt_of_le_of_lt (Nat.le_add_right _ recvBufsize) (h.outstanding_lt.trans (by decide))
  rw [h.lastAcked_eq, h.bytesTX_eq]
  constructor
  · rintro ⟨hlast, hbytes⟩
    exact (sameEpoch_of_le hlt.le (by omega) hlast).trans (sameEpoch_of_le hle (by omega) hbytes)
  · intro hepoch
    have hacked : SameEpoch 32 d.acked a := hepoch.between hlt.le hle
    have hbytes : SameEpoch 32 a d.bytes := hacked.symm.trans hepoch
    exact ⟨hacked.le_iff.mpr hlt.le, hbytes.le_iff.mpr hle⟩

theorem Sending.pendingEnds_mem (h : d.Sending cfg sha1) {e : Nat} (he : e ∈ d.pendingEnds) : d.acked < e ∧ e ≤ d.bytes := by
  obtain ⟨hmem, hlt⟩ := List.mem_filter.mp he
  have hpos : ∀ o ∈ d.out, 0 < o.block.length := fun o ho => (h.announced o ho).block_length.1
  obtain ⟨-, hle⟩ := lt_of_mem_bufferEnds hpos hmem
  rw [Nat.zero_add] at hle
  exact ⟨by simpa using hlt, hle⟩

theorem Sending.pendingEnds_sorted (h : d.Sending cfg sha1) : d.pendingEnds.Pairwise (· < ·) := by
  apply List.Pairwise.filter
  exact bufferEnds_sorted fun o ho => (h.announced o ho).block_length.1

/-- In an epoch, an acknowledgement of `a` bytes destroys exactly the buffers it covers. -/
theorem Sending.applyNameAck_eq {a : Nat} (h : d.Sending cfg sha1) (hlt : d.acked < a) (hle : a ≤ d.bytes)
    (hepoch : SameEpoch 32 d.acked d.bytes) (tmp : TempCache) (hints : HintTable) :
    applyNameAck (BitVec.ofNat 32 a) d.src tmp hints =
      (destroyBuffers true (coveredBuffers a d.src.ci.chunkBufferList d.pendingEnds) tmp hints >>= fun r =>
        .ok (acknowledged d.src (BitVec.ofNat 32 a) (keptBuffers a d.src.ci.chunkBufferList d.pendingEnds),
          decide (d.src.ci.status = .block) && windowOpen (takeAck d.src (BitVec.ofNat 32 a)).ci, r)) := by
  obtain ⟨hlast, hbytes⟩ := (h.checks_iff hlt hle).mpr hepoch
  have hacked : SameEpoch 32 d.acked a := hepoch.between hlt.le hle
  have htest : ∀ e ∈ d.pendingEnds, (BitVec.ofNat 32 a = 0 ∨ BitVec.ofNat 32 e ≤ BitVec.ofNat 32 a) ↔ e ≤ a := by
    intro e he
    obtain ⟨hlate, hend⟩ := h.pendingEnds_mem he
    have hsame : SameEpoch 32 e a := (hepoch.between hlate.le hend).symm.trans hacked
    rw [or_iff_right (hacked.ne_zero hlt), hsame.le_iff]
  rw [BeagleCache.applyNameAck_eq tmp hints h.status_cases hlast hbytes,
    destroyChunkBufferList_eq true tmp hints h.buffers h.pendingEnds_sorted htest]
  cases destroyBuffers true (coveredBuffers a d.src.ci.chunkBufferList d.pendingEnds) tmp hints with
  | error f => rfl
  | ok r => rfl

theorem windowOpen_le {a : Nat} {ci : UserConnection} (hci : ci.numSent = BitVec.ofNat 32 a) (ha : a < maxWindow)
    (hwindow : ci.maxWindowSize = BitVec.ofNat 32 maxWindow) (hopen : windowOpen ci = true) : 5 * a ≤ 4 * maxWindow := by
  rw [windowOpen, decide_eq_true_iff, hci, hwindow, ← ofNat_sub ha.le, BitVec.toNat_ofNat, BitVec.toNat_ofNat] at hopen
  simp only [maxWindow] at hopen ha ⊢
  omega

theorem Sending.ack {a : NameAck} {acks : List NameAck} {tmp : TempCache} {hints : HintTable}
    {r : UserFlow × Bool × TempCache × HintTable} (h : d.Sending cfg sha1) (hack : a.ack = BitVec.ofNat 32 a.written)
    (hlt : d.acked < a.written) (hle : a.written ≤ d.bytes) (happly : applyNameAck a.ack d.src tmp hints = .ok r) :
    Sending cfg sha1 { d with src := r.1, acks := acks, acked := a.written } := by
  have hchecks := applyNameAck_checks happly
  rw [hack] at hchecks happly
  have hepoch := (h.checks_iff hlt hle).mp hchecks
  rw [h.applyNameAck_eq hlt hle hepoch] at happly
  obtain ⟨t, -, hret⟩ := bind_eq_ok.mp happly
  cases hret
  have hless : d.bytes - a.written ≤ d.outstanding := by
    rw [outstanding]
    omega
  have hnum : d.src.ci.numSent - (BitVec.ofNat 32 a.written - d.src.lastAcked) = BitVec.ofNat 32 (d.bytes - a.written) := by
    have hsplit : d.outstanding = (d.bytes - a.written) + (a.written - d.acked) := by
      rw [outstanding]
      omega
    rw [h.numSent_eq, h.lastAcked_eq, ← ofNat_sub hlt.le, hsplit, BitVec.ofNat_add, BitVec.add_sub_cancel]
  refine ⟨h.announced, h.ready, h.bufRead_le, h.window_eq, h.bytesTX_eq, rfl, hnum, hle, ?_, ?_, ?_, ?_⟩
  · show (if _ then ConnectionStatus.active else d.src.ci.status) = .active ∨
      (if _ then ConnectionStatus.active else d.src.ci.status) = .block
    split
    · exact .inl rfl
    · exact h.status_cases
  · intro hstatus
    show 5 * (d.bytes - a.written) ≤ 4 * maxWindow
    replace hstatus : (if d.src.ci.status = .block ∧ windowOpen (takeAck d.src (BitVec.ofNat 32 a.written)).ci = true then
      ConnectionStatus.active else d.src.ci.status) = .active := hstatus
    split at hstatus
    case isTrue hopen =>
      have hsmall : d.bytes - a.written < maxWindow := by
        have := h.outstanding_lt
        omega
      exact @windowOpen_le _ (takeAck d.src (BitVec.ofNat 32 a.written)).ci hnum hsmall h.window_eq hopen.2
    case isFalse =>
      have := h.active_open hstatus
      omega
  · intro front o hout
    have := h.last_le front o hout
    show 5 * (d.bytes - a.written) ≤ _
    omega
  · have hfilter : (bufferEnds 0 d.out).filter (fun e => a.written < e) = d.pendingEnds.filter fun e => a.written < e := by
      rw [pendingEnds, List.filter_filter]
      apply List.filter_congr
      intro e _
      by_cases he : a.written < e
      · have : d.acked < e := hlt.trans he
        simp [he, this]
      · simp [he]
    show List.Forall₂ EndsAt (keptBuffers a.written d.src.ci.chunkBufferList d.pendingEnds)
      ((bufferEnds 0 d.out).filter fun e => a.written < e)
    rw [hfilter]
    exact keptBuffers_ends a.written h.buffers

/-! ## The destination -/

theorem Receiving.more (h : d.Receiving extra) (src : UserFlow) (out : List Outgoing) (acks : List NameAck) (acked : Nat) :
    Receiving extra { d with src := src, out := d.out ++ out, acks := acks, acked := acked } := by
  obtain ⟨done, hacc, htold, hle, hsum⟩ := h.accounts
  refine ⟨h.window_eq, done, hacc, htold, hle, hsum.trans ?_⟩
  show blockBytes (d.out.take d.delivered) ≤ blockBytes ((d.out ++ out).take d.delivered)
  rw [List.take_append, blockBytes_append]
  exact Nat.le_add_right _ _

theorem waitingBytes_append (a b : List ReassembleInfo) : waitingBytes (a ++ b) = waitingBytes a + waitingBytes b := by
  rw [waitingBytes, List.map_append, List.sum_append]
  rfl

theorem waitingBytes_cons (ri : ReassembleInfo) (rest : List ReassembleInfo) :
    waitingBytes (ri :: rest) = (ri.nameList.map ChunkNameInfo.length).sum + waitingBytes rest := by
  rw [waitingBytes, List.map_cons, List.sum_cons]
  rfl

theorem standsFor_length {names : List ChunkNameInfo} {chunks : List Bytes} (h : List.Forall₂ (StandsFor sha1) names chunks) :
    (names.map ChunkNameInfo.length).sum = chunks.flatten.length := by
  induction h with
  | nil => rfl
  | cons hone _ ih => rw [List.map_cons, List.sum_cons, ih, hone.2, List.flatten_cons, List.length_append]

/-- What a message does to the bytes that wait at the connection it is for: it hands `data` over, and the rest waits. -/
theorem delivered_bytes {o : Outgoing} {ci : UserConnection} {tmp tmp' : TempCache} {users : List UserConnection}
    (h : Delivered sha1 o ci tmp users tmp') :
    waitingBytes (users.headD ci).reassembleList + ((users.headD ci).sent.drop ci.sent.length).length ≤
      waitingBytes ci.reassembleList + o.block.length := by
  cases h with
  | elsewhere _ =>
      show waitingBytes ci.reassembleList + (ci.sent.drop ci.sent.length).length ≤ _
      rw [List.drop_length, List.length_nil]
      omega
  | raw _ hchunks =>
      show waitingBytes ci.reassembleList + ((ci.sent ++ o.block).drop ci.sent.length).length ≤ _
      rw [List.drop_left]
  | names _ hflatten hstands hholds =>
      show waitingBytes (ci.reassembleList ++ [_]) + (ci.sent.drop ci.sent.length).length ≤ _
      rw [List.drop_length, List.length_nil, waitingBytes_append, waitingBytes_cons, standsFor_length hstands, hflatten]
      exact le_refl _

theorem Receiving.deliver {pickPeer : Sha1Name → Int} {tmp : TempCache} {r : Direction × Option Bytes} (hs : d.Sending cfg sha1)
    (h : d.Receiving 0) (hdeliver : d.deliver cfg sha1 pickPeer tmp = .ok r) :
    r.1.Receiving ((r.2.map List.length).getD 0) ∧ r.2 ≠ some [] ∧
      r.1 = { d with delivered := r.1.delivered, dst := { d.dst with ci := r.1.dst.ci } } := by
  unfold Direction.deliver at hdeliver
  split at hdeliver
  · cases hdeliver
    refine ⟨h, ?_, rfl⟩
    intro hnone
    cases hnone
  case h_2 o ho =>
    obtain ⟨users, hmessage, hret⟩ := bind_eq_ok.mp hdeliver
    cases hret
    have hmem : o ∈ d.out := List.mem_of_getElem? ho
    have hwaiting := delivered_bytes ((hs.announced o hmem).delivered hmessage)
    obtain ⟨done, hacc, htold, hle, hsum⟩ := h.accounts
    have htake : blockBytes (d.out.take (d.delivered + 1)) = blockBytes (d.out.take d.delivered) + o.block.length := by
      rw [List.take_add_one, ho, blockBytes_append]
      rfl
    refine ⟨⟨h.window_eq, done, hacc, htold, hle, ?_⟩, ?_, rfl⟩
    · show (done.map List.length).sum + d.queue.lenWrite + waitingBytes (users.1.headD d.dst.ci).reassembleList + _ ≤
        blockBytes (d.out.take (d.delivered + 1))
      rw [htake]
      split
      · show _ + 0 ≤ _
        omega
      · show _ + ((users.1.headD d.dst.ci).sent.drop d.dst.ci.sent.length).length ≤ _
        omega
    · split
      · intro hnone
        cases hnone
      case isFalse hne =>
        intro hsome
        exact hne (Option.some.inj hsome)

theorem waitingBytes_congr {entries entries' : List ReassembleInfo}
    (h : entries'.map ReassembleInfo.nameList = entries.map ReassembleInfo.nameList) : waitingBytes entries' = waitingBytes entries := by
  have hsums := congrArg (List.map fun names : List ChunkNameInfo => (names.map ChunkNameInfo.length).sum) h
  rw [List.map_map, List.map_map] at hsums
  exact congrArg List.sum hsums

theorem Receiving.schedule {ci : UserConnection} (h : d.Receiving 0) (hschedule : populateILSQueue d.dst.ci = .ok ci) :
    Receiving 0 { d with dst := { d.dst with ci := ci } } := by
  obtain ⟨entries, hnames, rfl⟩ := populateILSQueue_ok hschedule
  obtain ⟨done, hacc, htold, hle, hsum⟩ := h.accounts
  rw [← waitingBytes_congr hnames] at hsum
  exact ⟨h.window_eq, done, hacc, htold, hle, hsum⟩

theorem copyChunks_length {names : List ChunkNameInfo} {tmp : TempCache} {r : Bytes × TempCache}
    (h : copyChunks cfg sha1 names tmp = .ok r) : r.1.length = (names.map ChunkNameInfo.length).sum := by
  induction names generalizing tmp r with
  | nil =>
      cases h
      rfl
  | cons walk rest ih =>
      rw [copyChunks] at h
      split at h
      · cases h
      · obtain ⟨_, hlen, h⟩ := bind_eq_ok.mp h
        obtain ⟨_, -, h⟩ := bind_eq_ok.mp h
        obtain ⟨tmp₁, -, h⟩ := bind_eq_ok.mp h
        obtain ⟨r₁, hrest, hret⟩ := bind_eq_ok.mp h
        cases hret
        rw [List.length_append, check_eq_ok.mp hlen, ih hrest, List.map_cons, List.sum_cons]

theorem reconstructOneChunkTree_pos {ri : ReassembleInfo} {tmp : TempCache} {r : Option Bytes × TempCache}
    (h : reconstructOneChunkTree cfg sha1 ri tmp = .ok r) : r.1 ≠ some [] := by
  unfold reconstructOneChunkTree at h
  split at h
  · cases h
    exact (Option.some_ne_none _).symm
  · split at h
    · cases h
      exact (Option.some_ne_none _).symm
    · obtain ⟨checked, -, h⟩ := bind_eq_ok.mp h
      split at h
      · cases h
        exact (Option.some_ne_none _).symm
      case isFalse hne =>
        obtain ⟨_, -, h⟩ := bind_eq_ok.mp h
        obtain ⟨copied, -, h⟩ := bind_eq_ok.mp h
        obtain ⟨_, hlen, hret⟩ := bind_eq_ok.mp h
        cases hret
        intro hnil
        have hcopied := check_eq_ok.mp hlen
        rw [Option.some.inj hnil, List.length_nil] at hcopied
        exact hne hcopied.symm

theorem Receiving.reconstruct {tmp : TempCache} {r : Direction × Option Bytes} (h : d.Receiving 0)
    (hrec : d.reconstruct cfg sha1 tmp = .ok r) : r.1.Receiving ((r.2.map List.length).getD 0) ∧ r.2 ≠ some [] ∧
      r.1 = { d with delivered := r.1.delivered, dst := { d.dst with ci := r.1.dst.ci } } := by
  have hnothing : (d : Direction).Receiving (((none : Option Bytes).map List.length).getD 0) ∧ (none : Option Bytes) ≠ some [] ∧
      d = { d with delivered := d.delivered, dst := { d.dst with ci := d.dst.ci } } := ⟨h, (Option.some_ne_none _).symm, rfl⟩
  unfold Direction.reconstruct at hrec
  split at hrec
  · cases hrec
    exact hnothing
  · split at hrec
    · cases hrec
      exact hnothing
    case h_2 ri rest hlist =>
      obtain ⟨one, hone, hrec⟩ := bind_eq_ok.mp hrec
      have hpos := reconstructOneChunkTree_pos hone
      rcases reconstructOneChunkTree_cases hone with ⟨hnone, -⟩ | ⟨-, -, block, hsome, hcopy⟩
      · rw [hnone] at hrec
        cases hrec
        exact hnothing
      · rw [hsome] at hrec hpos
        cases hrec
        obtain ⟨done, hacc, htold, hle, hsum⟩ := h.accounts
        have hlen := copyChunks_length hcopy
        refine ⟨⟨h.window_eq, done, hacc, htold, hle, ?_⟩, hpos, rfl⟩
        rw [hlist, waitingBytes_cons] at hsum
        show (done.map List.length).sum + d.queue.lenWrite + waitingBytes rest + block.length ≤
          blockBytes (d.out.take d.delivered)
        replace hlen : block.length = (ri.nameList.map ChunkNameInfo.length).sum := hlen
        omega

/-! ## Writing -/

theorem setDead_frame (uf : UserFlow) (abnormal : Bool) :
    (setDead uf abnormal).bytesRX = uf.bytesRX ∧ (setDead uf abnormal).ci.reassembleList = uf.ci.reassembleList := by
  unfold setDead
  split <;> exact ⟨rfl, rfl⟩

theorem postWrite_frame (bytesSent : BitVec 32) (eventTriggered : Bool) (uf : UserFlow) :
    (postWrite bytesSent eventTriggered uf).bytesRX = uf.bytesRX + bytesSent ∧
      (postWrite bytesSent eventTriggered uf).ci.reassembleList = uf.ci.reassembleList := by
  unfold postWrite
  simp only
  split
  · exact setDead_frame _ _
  · exact ⟨rfl, rfl⟩

/-- What `afterWrite` changes: an acknowledgement is sent when `PostWrite` is told of messages. -/
theorem afterWrite_eq (d : Direction) (eventTriggered : Bool) (queue : WriteQueue) : ∃ dst : UserFlow,
    dst.ci.reassembleList = d.dst.ci.reassembleList ∧
      ((queue.told ≤ d.queue.told ∧ dst.bytesRX = d.dst.bytesRX ∧
          d.afterWrite eventTriggered queue = { d with dst := dst, queue := queue }) ∨
        (d.queue.told < queue.told ∧ dst.bytesRX = d.dst.bytesRX + BitVec.ofNat 32 (queue.told - d.queue.told) ∧
          d.afterWrite eventTriggered queue = { d with
            dst := dst, queue := queue, acks := d.acks ++ [⟨dst.bytesRX, queue.told⟩] })) := by
  obtain ⟨dead, hdead⟩ : ∃ dead, dead = if queue.failed ∧ d.queue.failed = false then setDead d.dst true else d.dst := ⟨_, rfl⟩
  have hframe : dead.bytesRX = d.dst.bytesRX ∧ dead.ci.reassembleList = d.dst.ci.reassembleList := by
    rw [hdead]
    split
    · exact setDead_frame _ _
    · exact ⟨rfl, rfl⟩
  unfold afterWrite
  simp only
  rw [← hdead]
  by_cases htold : d.queue.told < queue.told
  · obtain ⟨hRX, hlist⟩ := postWrite_frame (BitVec.ofNat 32 (queue.told - d.queue.told)) eventTriggered dead
    refine ⟨_, hlist.trans hframe.2, .inr ⟨htold, ?_, if_pos htold⟩⟩
    rw [hRX, hframe.1]
  · exact ⟨dead, hframe.2, .inl ⟨Nat.le_of_not_lt htold, hframe.1, if_neg htold⟩⟩

theorem Acknowledging.afterWrite {queue : WriteQueue} (h : d.Acknowledging) (eventTriggered : Bool) (hge : d.queue.told ≤ queue.told) :
    (d.afterWrite eventTriggered queue).Acknowledging := by
  obtain ⟨dst, -, ⟨hsame, hRX, heq⟩ | ⟨hmore, hRX, heq⟩⟩ := afterWrite_eq d eventTriggered queue
  · have htold : queue.told = d.queue.told := le_antisymm hsame hge
    rw [heq]
    refine ⟨h.increasing, ?_, ?_, h.ack_eq, ?_⟩
    · show d.acked ≤ queue.told
      exact h.acked_le.trans hge
    · intro a ha
      exact (h.acks_le a ha).trans hge
    · show dst.bytesRX = BitVec.ofNat 32 queue.told
      rw [hRX, htold]
      exact h.bytesRX_eq
  · have hbytes : dst.bytesRX = BitVec.ofNat 32 queue.told := by
      rw [hRX, h.bytesRX_eq, ← BitVec.ofNat_add, Nat.add_sub_cancel' hge]
    rw [heq]
    refine ⟨?_, h.acked_le.trans hge, ?_, ?_, hbytes⟩
    · show (d.acked :: (d.acks ++ [NameAck.mk dst.bytesRX queue.told]).map NameAck.written).Pairwise (· < ·)
      rw [List.map_append, ← List.cons_append, List.pairwise_append]
      refine ⟨h.increasing, List.pairwise_singleton _ _, ?_⟩
      intro n hn m hm
      rw [List.map_singleton, List.mem_singleton] at hm
      rw [hm]
      rcases List.mem_cons.mp hn with rfl | hmem
      · exact h.acked_le.trans_lt hmore
      · obtain ⟨a, ha, rfl⟩ := List.mem_map.mp hmem
        exact (h.acks_le a ha).trans_lt hmore
    · intro a ha
      rcases List.mem_append.mp ha with hold | hnew
      · exact (h.acks_le a hold).trans hge
      · rw [List.mem_singleton] at hnew
        rw [hnew]
    · intro a ha
      rcases List.mem_append.mp ha with hold | hnew
      · exact h.ack_eq a hold
      · rw [List.mem_singleton] at hnew
        rw [hnew]
        exact hbytes

/-- The queue behind a write, where the messages `gone` were taken off. -/
theorem Receiving.afterWrite {queue : WriteQueue} {sent done gone : List Bytes} (eventTriggered : Bool)
    (h : d.queue.window = some maxWindow) (hmoved : WriteQueue.Moved gone d.queue queue)
    (hsplit : d.queue.msgListWrite ++ sent = gone ++ queue.msgListWrite) (hbefore : WriteQueue.Accounted done d.queue)
    (hacc : WriteQueue.Accounted (done ++ gone) queue) (htold : WriteQueue.Told (done ++ gone) queue)
    (hle : d.queue.told ≤ (done.map List.length).sum)
    (hsum : (done.map List.length).sum + d.queue.lenWrite + waitingBytes d.dst.ci.reassembleList + (sent.map List.length).sum ≤
      blockBytes (d.out.take d.delivered)) : (d.afterWrite eventTriggered queue).Receiving 0 := by
  have hlengths : d.queue.lenWrite + (sent.map List.length).sum = (gone.map List.length).sum + queue.lenWrite := by
    rw [hbefore.length, hacc.length, ← List.sum_append, ← List.sum_append, ← List.map_append, ← List.map_append, hsplit]
  have htoldle := hmoved.told_le
  have hwindow := hmoved.window_eq.trans h
  have hsums : ((done ++ gone).map List.length).sum = (done.map List.length).sum + (gone.map List.length).sum := by
    rw [List.map_append, List.sum_append]
  have htold' : queue.told ≤ ((done ++ gone).map List.length).sum := by omega
  have htotal : ((done ++ gone).map List.length).sum + queue.lenWrite + waitingBytes d.dst.ci.reassembleList + 0 ≤
      blockBytes (d.out.take d.delivered) := by omega
  obtain ⟨dst, hlist, ⟨-, -, heq⟩ | ⟨-, -, heq⟩⟩ := afterWrite_eq d eventTriggered queue
  · rw [heq]
    exact ⟨hwindow, done ++ gone, hacc, htold, htold', by rw [← hlist] at htotal; exact htotal⟩
  · rw [heq]
    exact ⟨hwindow, done ++ gone, hacc, htold, htold', by rw [← hlist] at htotal; exact htotal⟩

/-! ## Steps -/

theorem Sending.frame (h : d.Sending cfg sha1) (delivered : Nat) (dst : UserFlow) (queue : WriteQueue) (acks : List NameAck) :
    Sending cfg sha1 { d with delivered := delivered, dst := dst, queue := queue, acks := acks } :=
  ⟨h.announced, h.ready, h.bufRead_le, h.window_eq, h.bytesTX_eq, h.lastAcked_eq, h.numSent_eq, h.acked_le, h.status_cases,
    h.active_open, h.last_le, h.buffers⟩

theorem Acknowledging.frame (h : d.Acknowledging) (src : UserFlow) (out : List Outgoing) (delivered : Nat) (ci : UserConnection) :
    Acknowledging { d with src := src, out := out, delivered := delivered, dst := { d.dst with ci := ci } } :=
  ⟨h.increasing, h.acked_le, h.acks_le, h.ack_eq, h.bytesRX_eq⟩

theorem Sending.afterWrite (h : d.Sending cfg sha1) (eventTriggered : Bool) (queue : WriteQueue) :
    (d.afterWrite eventTriggered queue).Sending cfg sha1 := by
  obtain ⟨dst, -, ⟨-, -, heq⟩ | ⟨-, -, heq⟩⟩ := afterWrite_eq d eventTriggered queue
  · rw [heq]
    exact h.frame _ _ _ _
  · rw [heq]
    exact h.frame _ _ _ _

/-- The next acknowledgement: it is of more bytes than the last one, and of no more than were sent. -/
theorem Balanced.next_ack {a : NameAck} {acks : List NameAck} (h : d.Balanced cfg sha1 extra) (hacks : d.acks = a :: acks) :
    a.ack = BitVec.ofNat 32 a.written ∧ d.acked < a.written ∧ a.written ≤ d.bytes := by
  have hmem : a ∈ d.acks := by
    rw [hacks]
    exact List.mem_cons_self
  have hlt := h.acknowledging.increasing
  rw [hacks, List.map_cons, List.pairwise_cons] at hlt
  exact ⟨h.acknowledging.ack_eq a hmem, hlt.1 _ List.mem_cons_self, (h.acknowledging.acks_le a hmem).trans h.queued_le.1⟩

/-- A step up to its call of `SendData`. -/
theorem handOver_balanced (hcfg : cfg.Sized) {e : FlowEvent} {r : Direction × Option Bytes} (h : d.Balanced cfg sha1 0)
    (hstep : d.handOver cfg sha1 host e = .ok r) :
    r.1.Balanced cfg sha1 ((r.2.map List.length).getD 0) ∧ r.2 ≠ some [] := by
  cases e with
  | read data =>
      cases hstep
      refine ⟨⟨h.sending.read data, h.acknowledging.frame _ _ _ _, ?_⟩, (Option.some_ne_none _).symm⟩
      have := h.receiving.more { d.src with
        ci := { d.src.ci with bufRead := d.src.ci.bufRead ++ data.take (recvBufsize - d.src.ci.bufRead.length) } } [] d.acks d.acked
      rwa [List.append_nil] at this
  | serve forceProcess hint sh =>
      obtain ⟨r₁, hserve, hret⟩ := bind_eq_ok.mp hstep
      cases hret
      exact ⟨⟨h.sending.serve hcfg hserve, h.acknowledging.frame _ _ _ _, h.receiving.more _ _ _ _⟩,
        (Option.some_ne_none _).symm⟩
  | deliver pickPeer tmp outcomes =>
      obtain ⟨hreceiving, hne, hframe⟩ := Receiving.deliver h.sending h.receiving hstep
      refine ⟨⟨?_, ?_, hreceiving⟩, hne⟩
      · rw [hframe]
        exact h.sending.frame _ _ _ _
      · rw [hframe]
        exact h.acknowledging.frame _ _ _ _
  | schedule =>
      obtain ⟨ci, hschedule, hret⟩ := bind_eq_ok.mp hstep
      cases hret
      exact ⟨⟨h.sending.frame _ _ _ _, h.acknowledging.frame _ _ _ _, h.receiving.schedule hschedule⟩,
        (Option.some_ne_none _).symm⟩
  | reconstruct tmp outcomes =>
      obtain ⟨hreceiving, hne, hframe⟩ := h.receiving.reconstruct hstep
      refine ⟨⟨?_, ?_, hreceiving⟩, hne⟩
      · rw [hframe]
        exact h.sending.frame _ _ _ _
      · rw [hframe]
        exact h.acknowledging.frame _ _ _ _
  | writable outcomes =>
      obtain ⟨queue, hwrite, hret⟩ := bind_eq_ok.mp hstep
      cases hret
      obtain ⟨done, hacc, htold, hle, hsum⟩ := h.receiving.accounts
      obtain ⟨gone, hsplit, hacc', htold', hmoved⟩ := WriteQueue.writeNext_accounted hacc htold hwrite
      refine ⟨⟨h.sending.afterWrite _ _, h.acknowledging.afterWrite _ hmoved.told_ge, ?_⟩, (Option.some_ne_none _).symm⟩
      exact .afterWrite true h.receiving.window_eq hmoved hsplit hacc hacc' htold' hle hsum
  | ack tmp hints =>
      rw [handOver] at hstep
      split at hstep
      · cases hstep
        exact ⟨h, (Option.some_ne_none _).symm⟩
      case h_2 a acks hacks =>
        obtain ⟨r₁, happly, hret⟩ := bind_eq_ok.mp hstep
        cases hret
        obtain ⟨hack, hlt, hle⟩ := h.next_ack hacks
        have hmem : a ∈ d.acks := by
          rw [hacks]
          exact List.mem_cons_self
        have hrest : ∀ b ∈ acks, b ∈ d.acks := by
          intro b hb
          rw [hacks]
          exact List.mem_cons_of_mem a hb
        refine ⟨⟨h.sending.ack hack hlt hle happly, ⟨?_, h.acknowledging.acks_le a hmem, ?_, ?_, h.acknowledging.bytesRX_eq⟩, ?_⟩,
          (Option.some_ne_none _).symm⟩
        · have := h.acknowledging.increasing
          rw [hacks] at this
          exact this.of_cons
        · exact fun b hb => h.acknowledging.acks_le b (hrest b hb)
        · exact fun b hb => h.acknowledging.ack_eq b (hrest b hb)
        · have := h.receiving.more r₁.1 [] acks a.written
          rwa [List.append_nil] at this

theorem Balanced.send {msg : Bytes} (h : d.Balanced cfg sha1 msg.length) (hmsg : msg ≠ []) (outcomes : List WriteOutcome) :
    d.queue.lenWrite + msg.length < 2 * maxWindow ∧
      ∃ queue, sendDataPrivate d.queue msg outcomes = .ok queue ∧ (d.afterWrite false queue).Balanced cfg sha1 0 := by
  have hroom : d.queue.lenWrite + msg.length < maxWindow := by
    have h1 := h.queued_le.2
    have h2 := h.sending.outstanding_lt
    omega
  have hpos : 0 < msg.length := List.length_pos_of_ne_nil hmsg
  obtain ⟨done, hacc, htold, hle, hsum⟩ := h.receiving.accounts
  have hsend : ∃ queue, sendDataPrivate d.queue msg outcomes = .ok queue := by
    have hfull : ¬ (d.queue.window.map fun maxWindowSize => decide (maxWindowSize * 2 ≤ d.queue.lenWrite + msg.length)) = some true := by
      rw [h.receiving.window_eq, Option.map_some, Option.some.injEq, decide_eq_true_iff]
      omega
    have hint : d.queue.lenWrite + msg.length < 2 ^ 31 := hroom.trans (by decide)
    unfold sendDataPrivate
    rw [check_of hpos, ok_bind]
    simp only
    rw [if_neg hfull, inBounds_of hint, ok_bind]
    split
    · obtain ⟨queue, -, hwrite, -⟩ := WriteQueue.write_accounted outcomes (hacc.send hpos) htold
      exact ⟨queue, hwrite⟩
    · exact ⟨_, rfl⟩
  obtain ⟨queue, hqueue⟩ := hsend
  obtain ⟨gone, hsplit, hacc', htold', hmoved⟩ := WriteQueue.sendDataPrivate_accounted hacc htold hqueue
  refine ⟨by omega, queue, hqueue, h.sending.afterWrite _ _, h.acknowledging.afterWrite _ hmoved.told_ge, ?_⟩
  refine .afterWrite false h.receiving.window_eq hmoved hsplit hacc hacc' htold' hle ?_
  rwa [List.map_singleton, List.sum_singleton]

theorem flowNext_balanced (hcfg : cfg.Sized) {d' : Direction} {e : FlowEvent} (h : d.Balanced cfg sha1 0)
    (hstep : flowNext cfg sha1 host d e = .ok d') : d'.Balanced cfg sha1 0 := by
  obtain ⟨⟨d₁, msg⟩, hhand, hstep⟩ := bind_eq_ok.mp hstep
  obtain ⟨hbalanced, hne⟩ := handOver_balanced hcfg h hhand
  cases msg with
  | none =>
      cases hstep
      exact hbalanced
  | some msg =>
      obtain ⟨queue, hsend, hret⟩ := bind_eq_ok.mp hstep
      cases hret
      have hmsg : msg ≠ [] := fun hnil => hne (congrArg some hnil)
      obtain ⟨-, queue', hsend', hafter⟩ := Balanced.send hbalanced hmsg e.outcomes
      cases hsend.symm.trans hsend'
      exact hafter

theorem flowSystem_balanced (hcfg : cfg.Sized) : (flowSystem cfg sha1 host).Invariant (Balanced cfg sha1 0) where
  init := fun _ hinit => newDirection_balanced hinit
  step := fun _ _ _ h hstep => flowNext_balanced hcfg h hstep

end Direction

/-- In every state of a direction that carried less than `2 ^ 32` bytes: `numSent` is the difference of `bytesTX` and
`lastAcked`, the acknowledgements on their way lie between these two, no more than the window and the last message is
outstanding, and what waits for the user or is handed to `SendData` next stays below the limit of `SendDataPrivate`. -/
theorem flow_control {cfg : Config} {sha1 : Bytes → Sha1Name} {host : Bytes → Option (BitVec 32 × BitVec 16)} (hcfg : cfg.Sized)
    {events : List FlowEvent} {d : Direction} (hrun : (flowSystem cfg sha1 host).Runs events d) (hbytes : d.bytes < 2 ^ 32) :
    d.src.ci.bytesTX.toNat = d.bytes ∧ d.src.lastAcked.toNat + d.src.ci.numSent.toNat = d.src.ci.bytesTX.toNat ∧
      (∀ a ∈ d.acks, d.src.lastAcked ≤ a.ack ∧ a.ack ≤ d.src.ci.bytesTX) ∧
      (∀ front o, d.out = front ++ [o] → 5 * d.src.ci.numSent.toNat ≤ 4 * maxWindow + 5 * o.block.length) ∧
      d.queue.lenWrite < 2 * maxWindow ∧
      ∀ e d' msg, d.handOver cfg sha1 host e = .ok (d', some msg) → d'.queue.lenWrite + msg.length < 2 * maxWindow ∧
        ∃ queue, sendDataPrivate d'.queue msg e.outcomes = .ok queue := by
  have h := (Direction.flowSystem_balanced hcfg).holds hrun
  have hacked := h.sending.acked_le
  have htold := h.queued_le.1
  have hout : d.outstanding = d.bytes - d.acked := rfl
  have hTX : d.src.ci.bytesTX.toNat = d.bytes := by
    rw [h.sending.bytesTX_eq, BitVec.toNat_ofNat, Nat.mod_eq_of_lt hbytes]
  have hlast : d.src.lastAcked.toNat = d.acked := by
    rw [h.sending.lastAcked_eq, BitVec.toNat_ofNat, Nat.mod_eq_of_lt (by omega)]
  have hnum : d.src.ci.numSent.toNat = d.outstanding := by
    rw [h.sending.numSent_eq, BitVec.toNat_ofNat, Nat.mod_eq_of_lt (by omega)]
  refine ⟨hTX, by omega, ?_, ?_, ?_, ?_⟩
  · intro a ha
    have hle := h.acknowledging.acks_le a ha
    have hlt := (List.pairwise_cons.mp h.acknowledging.increasing).1 _ (List.mem_map_of_mem ha)
    have hack : a.ack.toNat = a.written := by
      rw [h.acknowledging.ack_eq a ha, BitVec.toNat_ofNat, Nat.mod_eq_of_lt (by omega)]
    rw [BitVec.le_def, BitVec.le_def]
    omega
  · intro front o hlast
    rw [hnum]
    exact h.sending.last_le front o hlast
  · have hroom := h.sending.outstanding_lt
    have hqueued := h.queued_le.2
    omega
  · intro e d' msg hhand
    obtain ⟨hbalanced, hne⟩ := Direction.handOver_balanced hcfg h hhand
    obtain ⟨hroom, queue, hsend, -⟩ := hbalanced.send (fun hnil => hne (congrArg some hnil)) e.outcomes
    exact ⟨hroom, queue, hsend⟩

/-- Data that is chunked, announced and written, and whose acknowledgement is on its way. -/
def flowSample : List FlowEvent :=
  [.read sampleData, .serve true sampleHint ⟨emptyTempCache, default⟩, .deliver (fun _ => 0) emptyTempCache [], .schedule,
    .reconstruct (fun n => if n = calcSHA1Sig (sampleData.take 33) then some ⟨sampleData.take 33, 1⟩ else none) [.wrote 40]]

def flowSampleRun : Run Direction := do
  let src ← createUserConnectionInfo sampleConfig true
  let dst ← createUserConnectionInfo sampleConfig false
  flowSample.foldlM (flowNext sampleConfig calcSHA1Sig fun _ => none)
    (newDirection { src with key := sampleConn, isHttpProxy := false } { dst with key := sampleConn.reverse })

theorem flowSample_runs : ∃ d, (flowSystem sampleConfig calcSHA1Sig fun _ => none).Runs flowSample d ∧ d.bytes = 40 ∧ d.acked = 0 ∧
    d.acks.map NameAck.written = [33] ∧ d.src.ci.chunkBufferList.length = 2 := by
  obtain ⟨d, hrun, hlook⟩ := @Run.exists_of_map _ _ flowSampleRun
    (fun d => (d.bytes, d.acked, d.acks.map NameAck.written, d.src.ci.chunkBufferList.length)) (40, 0, [33], 2) (by decide +kernel)
  simp only [Prod.mk.injEq] at hlook
  obtain ⟨src, hsrc, hrun⟩ := bind_eq_ok.mp hrun
  obtain ⟨dst, hdst, hrun⟩ := bind_eq_ok.mp hrun
  have hstart : (flowSystem sampleConfig calcSHA1Sig fun _ => none).Runs [] (newDirection
      { src with key := sampleConn, isHttpProxy := false } { dst with key := sampleConn.reverse }) :=
    .start ⟨true, false, src, dst, sampleConn, sampleConn.reverse, false, hsrc, hdst, rfl⟩
  exact ⟨d, System.runs_foldlM hstart hrun, hlook⟩

theorem flow_control_sample : ∃ d, (flowSystem sampleConfig calcSHA1Sig fun _ => none).Runs flowSample d ∧ d.bytes = 40 ∧
    d.acks.length = 1 ∧ d.src.lastAcked.toNat + d.src.ci.numSent.toNat = d.src.ci.bytesTX.toNat ∧
    ∀ a ∈ d.acks, d.src.lastAcked ≤ a.ack ∧ a.ack ≤ d.src.ci.bytesTX := by
  obtain ⟨d, hrun, hbytes, -, hacks, -⟩ := flowSample_runs
  obtain ⟨-, hsum, hbetween, -⟩ := flow_control sampleConfig_sized hrun (by rw [hbytes]; decide)
  refine ⟨d, hrun, hbytes, ?_, hsum, hbetween⟩
  rw [← List.length_map, hacks]
  rfl

end BeagleCache

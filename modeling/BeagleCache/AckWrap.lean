import BeagleCache.FlowAccounts

/-! Acknowledgements of long streams. The counters of a connection overflow after `2 ^ 32` bytes and are compared as if they
did not. -/

namespace BeagleCache

open Transition Wrapping

/-- `ProcessNameAck` takes the acknowledgement: its assertions hold, and on any tables it destroys exactly the buffers that
the acknowledgement covers and keeps the other ones. -/
def Direction.Accepts (d : Direction) (a : NameAck) : Prop :=
  d.src.lastAcked ≤ a.ack ∧ a.ack ≤ d.src.ci.bytesTX ∧
    ∀ tmp hints, applyNameAck a.ack d.src tmp hints =
      (destroyBuffers true (coveredBuffers a.written d.src.ci.chunkBufferList d.pendingEnds) tmp hints >>= fun r =>
        .ok (acknowledged d.src a.ack (keptBuffers a.written d.src.ci.chunkBufferList d.pendingEnds),
          decide (d.src.ci.status = .block) && windowOpen (takeAck d.src a.ack).ci, r))

/-- In every state of a direction, whatever it carried: the buffers of the source are those whose data is not acknowledged, less
than the window is outstanding, and the next acknowledgement is taken exactly when the bytes that the last one covered and the
bytes that were sent lie in the same epoch. -/
theorem name_ack_iff {cfg : Config} {sha1 : Bytes → Sha1Name} {host : Bytes → Option (BitVec 32 × BitVec 16)} (hcfg : cfg.Sized)
    {events : List FlowEvent} {d : Direction} {a : NameAck} {acks : List NameAck}
    (hrun : (flowSystem cfg sha1 host).Runs events d) (hacks : d.acks = a :: acks) :
    List.Forall₂ EndsAt d.src.ci.chunkBufferList d.pendingEnds ∧ d.outstanding < maxWindow ∧
      (d.Accepts a ↔ SameEpoch 32 d.acked d.bytes) := by
  have h := (Direction.flowSystem_balanced hcfg).holds hrun
  obtain ⟨hack, hlt, hle⟩ := h.next_ack hacks
  refine ⟨h.sending.buffers, ?_, ?_⟩
  · have := h.sending.outstanding_lt
    omega
  · constructor
    · rintro ⟨hlast, hbytes, -⟩
      rw [hack] at hlast hbytes
      exact (h.sending.checks_iff hlt hle).mp ⟨hlast, hbytes⟩
    · intro hepoch
      obtain ⟨hlast, hbytes⟩ := (h.sending.checks_iff hlt hle).mpr hepoch
      rw [Direction.Accepts, hack]
      exact ⟨hlast, hbytes, h.sending.applyNameAck_eq hlt hle hepoch⟩

theorem name_ack_iff_sample : ∃ d a, (flowSystem sampleConfig calcSHA1Sig fun _ => none).Runs flowSample d ∧ d.acks = [a] ∧
    d.src.ci.chunkBufferList.length = 2 ∧ SameEpoch 32 d.acked d.bytes ∧ d.Accepts a := by
  obtain ⟨d, hrun, hbytes, hacked, hwritten, hlength⟩ := flowSample_runs
  obtain ⟨a, acks, hacks, -, hnil⟩ := List.map_eq_cons_iff.mp hwritten
  obtain rfl := List.map_eq_nil_iff.mp hnil
  have hepoch : SameEpoch 32 d.acked d.bytes := by
    rw [hacked, hbytes]
    decide
  obtain ⟨-, -, hiff⟩ := name_ack_iff sampleConfig_sized hrun hacks
  exact ⟨d, a, hrun, hacks, hlength, hepoch, hiff.mpr hepoch⟩

/-! ## A stream of 4 GiB -/

/-- A message that is written as it is handed over, on a connection where nothing waits. -/
theorem sendDataPrivate_whole {q : WriteQueue} {msg : Bytes} (hwindow : q.window = some maxWindow) (habnormal : q.isAbnormal = false)
    (hwritable : q.isWritable = true) (hempty : q.lenWrite = 0 ∧ q.msgListWrite = [] ∧ q.firstMsgOffset = 0) (hpos : 0 < msg.length)
    (hsmall : msg.length < maxWindow) :
    sendDataPrivate q msg [.wrote msg.length] = .ok { q with accepted := q.accepted ++ msg, told := q.told + msg.length } := by
  obtain ⟨window, isAbnormal, isWritable, lenWrite, msgListWrite, firstMsgOffset, accepted, told, failed⟩ := q
  obtain ⟨rfl, rfl, rfl⟩ := hempty
  cases hwindow
  cases habnormal
  cases hwritable
  have hfull : ¬ (some maxWindow).map (fun maxWindowSize => decide (maxWindowSize * 2 ≤ 0 + msg.length)) = some true := by
    rw [Option.map_some, Option.some.injEq, decide_eq_true_iff]
    omega
  have hint : 0 + msg.length < 2 ^ 31 := by
    have : maxWindow < 2 ^ 31 := by decide
    omega
  have hzero : ¬ msg.length = 0 := by omega
  unfold sendDataPrivate
  rw [check_of hpos, Run.ok_bind]
  simp only
  rw [if_neg hfull, inBounds_of hint, Run.ok_bind]
  simp [write, writeLoop, actualWrite, hpos, hzero]

/-- A direction that sends its data as it comes, where nothing waits to be sent or to be written. -/
structure Direction.Quiet (d : Direction) : Prop where
  active : d.src.ci.status = .active
  plain : d.src.ci.isHttpProxy = false
  key_eq : d.src.ci.key = sampleConn
  isForward_eq : d.src.ci.isForward = true
  bufRead_nil : d.src.ci.bufRead = []
  buffers_nil : d.src.ci.chunkBufferList = []
  all_delivered : d.delivered = d.out.length
  dst_key : d.dst.ci.key = sampleConn.reverse
  not_abnormal : d.queue.isAbnormal = false
  writable : d.queue.isWritable = true
  queue_empty : d.queue.lenWrite = 0 ∧ d.queue.msgListWrite = [] ∧ d.queue.firstMsgOffset = 0

section Stream

variable {host : Bytes → Option (BitVec 32 × BitVec 16)} {d : Direction} {block : Bytes} (hlen : block.length = 65536)

theorem deliverMessage_found {msg : Bytes} {ci : UserConnection} (hci : ci.key = sampleConn.reverse)
    (hbuild : buildWARawMessage sampleConn block = .ok msg) (hle : block.length ≤ recvBufsize) (tmp : TempCache) :
    deliverMessage rawConfig calcSHA1Sig (fun _ => 0) msg [ci] tmp =
      .ok ([{ ci with sent := ci.sent ++ block, seqNo := ci.seqNo + 1 }], tmp) := by
  have hfound : getDestinationConnection [ci] sampleConn = some 0 := by
    rw [getDestinationConnection, List.findIdx?_cons, hci]
    rfl
  rw [(deliverMessage_raw_eq hbuild hle [ci] tmp).2, hfound]
  rfl

/-- The source behind a block. -/
def sentBlock (block : Bytes) (ci : UserConnection) : UserConnection :=
  { ci with bytesTX := ci.bytesTX + BitVec.ofNat 32 block.length, numSent := ci.numSent + BitVec.ofNat 32 block.length }

include hlen in
theorem stream_serve {events : List FlowEvent} (hrun : (flowSystem rawConfig calcSHA1Sig host).Runs events d) (hquiet : d.Quiet)
    (hacked : d.acked = d.bytes) : ∃ events' msg, buildWARawMessage sampleConn block = .ok msg ∧
      (flowSystem rawConfig calcSHA1Sig host).Runs events'
        { d with src := { d.src with ci := sentBlock block d.src.ci }, out := d.out ++ [⟨msg, block, []⟩] } := by
  have h := (Direction.flowSystem_balanced rawConfig_sized).holds hrun
  have hread : d.src.ci.bufRead ++ block.take (recvBufsize - d.src.ci.bufRead.length) = block := by
    rw [hquiet.bufRead_nil, List.nil_append, List.take_of_length_le]
    rw [hlen]
    decide
  let src : UserConnection := { d.src.ci with bufRead := block }
  have hrun₁ : (flowSystem rawConfig calcSHA1Sig host).Runs (events ++ [.read block]) { d with src := { d.src with ci := src } } := by
    refine hrun.step ?_
    show flowNext _ _ _ _ _ = _
    rw [flowNext, Direction.handOver, hread]
    rfl
  obtain ⟨msg, hmsg⟩ : ∃ msg, buildWARawMessage sampleConn block = .ok msg := by
    rw [buildWARawMessage, check_of (by rw [hlen]; decide), Run.ok_bind, fillControlHeader_eq (by decide)]
    exact ⟨_, rfl⟩
  have hnone : d.src.ci.numSent = BitVec.ofNat 32 0 := by
    rw [h.sending.numSent_eq, Direction.outstanding, hacked, Nat.sub_self]
  have hfull : windowFull (countSent src src.bufRead.length) = false := by
    show decide (4 * d.src.ci.maxWindowSize.toNat < 5 * (d.src.ci.numSent + BitVec.ofNat 32 block.length).toNat) = false
    rw [h.sending.window_eq, hnone, hlen]
    decide
  have hserve := @serveUser_raw rawConfig calcSHA1Sig (fun _ => false) host src ⟨emptyTempCache, default⟩ msg hquiet.plain
    (by show ¬ (d.src.ci.key.dstIP = 0 ∧ d.src.ci.key.dstPort = 0); rw [hquiet.key_eq]; decide) hquiet.active
    (by show rawMode rawConfig d.src.ci.isForward = true; rw [hquiet.isForward_eq]; rfl)
    (by show buildWARawMessage d.src.ci.key block = .ok msg; rw [hquiet.key_eq]; exact hmsg) true
  have hsent : { countSent src src.bufRead.length with
      bufRead := []
      status := if windowFull (countSent src src.bufRead.length) then .block else .active } = sentBlock block d.src.ci := by
    rw [hfull, sentBlock, ← hquiet.bufRead_nil, ← hquiet.active]
    rfl
  rw [hsent] at hserve
  refine ⟨_, msg, hmsg, hrun₁.step (e := .serve true (fun _ => false) ⟨emptyTempCache, default⟩) ?_⟩
  show flowNext _ _ _ _ _ = _
  rw [flowNext, Direction.handOver]
  show (serveUser rawConfig calcSHA1Sig (fun _ => false) host true src ⟨emptyTempCache, default⟩ >>= _) >>= _ = _
  rw [hserve]
  rfl

include hlen in
theorem stream_send {events : List FlowEvent} (hrun : (flowSystem rawConfig calcSHA1Sig host).Runs events d) (hquiet : d.Quiet)
    (hacks : d.acks = []) (hacked : d.acked = d.bytes) : ∃ events' d', (flowSystem rawConfig calcSHA1Sig host).Runs events' d' ∧
      d'.Quiet ∧ d'.acked = d.bytes ∧ d'.bytes = d.bytes + 65536 ∧ ∃ a, d'.acks = [a] ∧ a.written = d'.bytes := by
  have h := (Direction.flowSystem_balanced rawConfig_sized).holds hrun
  have htold : d.queue.told = d.bytes := by
    have h1 := h.queued_le.1
    have h2 := h.acknowledging.acked_le
    omega
  obtain ⟨events', msg, hmsg, hrun'⟩ := stream_serve hlen hrun hquiet hacked
  have hle : block.length ≤ recvBufsize := by
    rw [hlen]
    decide
  have hdeliver := deliverMessage_found hquiet.dst_key hmsg hle emptyTempCache
  have hsend := @sendDataPrivate_whole d.queue block h.receiving.window_eq hquiet.not_abnormal hquiet.writable hquiet.queue_empty
    (by rw [hlen]; decide) (by rw [hlen]; decide)
  let queue : WriteQueue := { d.queue with
    accepted := d.queue.accepted ++ block
    told := d.queue.told + block.length }
  let dst : UserFlow := { d.dst with ci := { d.dst.ci with
    sent := d.dst.ci.sent ++ block
    seqNo := d.dst.ci.seqNo + 1 } }
  let d₁ : Direction := { d with
    src := { d.src with ci := sentBlock block d.src.ci }
    out := d.out ++ [⟨msg, block, []⟩]
    delivered := d.delivered + 1
    dst := dst }
  have hstep : flowNext rawConfig calcSHA1Sig host { d with
      src := { d.src with ci := sentBlock block d.src.ci }
      out := d.out ++ [⟨msg, block, []⟩] } (.deliver (fun _ => 0) emptyTempCache [.wrote block.length]) =
        .ok (d₁.afterWrite false queue) := by
    have hnext : (d.out ++ [⟨msg, block, []⟩])[d.delivered]? = some ⟨msg, block, []⟩ := by
      rw [hquiet.all_delivered, List.getElem?_concat_length]
    have hhand : Direction.handOver rawConfig calcSHA1Sig host { d with
        src := { d.src with ci := sentBlock block d.src.ci }
        out := d.out ++ [⟨msg, block, []⟩] } (.deliver (fun _ => 0) emptyTempCache [.wrote block.length]) =
          .ok (d₁, some block) := by
      have hdata : (d.dst.ci.sent ++ block).drop d.dst.ci.sent.length = block := List.drop_left
      have hne : ¬ block = [] := List.ne_nil_of_length_pos (by rw [hlen]; decide)
      rw [Direction.handOver, Direction.deliver]
      simp only [hnext, hdeliver, Run.ok_bind, List.headD_cons, hdata, if_neg hne]
      rfl
    rw [flowNext, hhand]
    show sendDataPrivate d.queue block [.wrote block.length] >>= _ = _
    rw [hsend]
    rfl
  have hfailed : ¬ (queue.failed = true ∧ d₁.queue.failed = false) := by
    rintro ⟨htrue, hfalse⟩
    cases htrue.symm.trans hfalse
  have hmore : d₁.queue.told < queue.told := by
    show d.queue.told < d.queue.told + block.length
    omega
  have hafter : d₁.afterWrite false queue = { d₁ with
      dst := { dst with bytesRX := dst.bytesRX + BitVec.ofNat 32 (queue.told - d₁.queue.told) }
      queue := queue
      acks := d.acks ++ [⟨dst.bytesRX + BitVec.ofNat 32 (queue.told - d₁.queue.told), queue.told⟩] } := by
    unfold Direction.afterWrite
    rw [if_neg hfailed]
    simp only [if_pos hmore]
    rfl
  have hbytes : blockBytes (d.out ++ [⟨msg, block, []⟩]) = d.bytes + 65536 := by
    rw [blockBytes_append, blockBytes_cons, blockBytes_nil, hlen]
    rfl
  rw [hafter] at hstep
  refine ⟨_, _, hrun'.step hstep, ?_, hacked, hbytes,
    ⟨dst.bytesRX + BitVec.ofNat 32 (queue.told - d₁.queue.told), queue.told⟩, ?_, ?_⟩
  · refine ⟨hquiet.active, hquiet.plain, hquiet.key_eq, hquiet.isForward_eq, hquiet.bufRead_nil, hquiet.buffers_nil, ?_, hquiet.dst_key,
      hquiet.not_abnormal, hquiet.writable, hquiet.queue_empty⟩
    show d.delivered + 1 = (d.out ++ [Outgoing.mk msg block []]).length
    rw [List.length_append, hquiet.all_delivered]
    rfl
  · show d.acks ++ _ = _
    rw [hacks]
    rfl
  · show d.queue.told + block.length = blockBytes (d.out ++ [⟨msg, block, []⟩])
    rw [hbytes, htold, hlen]

/-- The acknowledgement of a block is taken, unless the count overflowed. -/
theorem stream_ack {events : List FlowEvent} {a : NameAck} (hrun : (flowSystem rawConfig calcSHA1Sig host).Runs events d)
    (hquiet : d.Quiet) (hacks : d.acks = [a]) (hwritten : a.written = d.bytes) (hepoch : SameEpoch 32 d.acked d.bytes) :
    ∃ events' d', (flowSystem rawConfig calcSHA1Sig host).Runs events' d' ∧ d'.Quiet ∧ d'.acks = [] ∧ d'.acked = d'.bytes ∧
      d'.bytes = d.bytes := by
  have h := (Direction.flowSystem_balanced rawConfig_sized).holds hrun
  obtain ⟨hack, hlt, hle⟩ := h.next_ack hacks
  have happly := h.sending.applyNameAck_eq hlt hle hepoch emptyTempCache ⟨[], []⟩
  have hnone : ∀ ends, coveredBuffers a.written d.src.ci.chunkBufferList ends = [] ∧
      keptBuffers a.written d.src.ci.chunkBufferList ends = [] := by
    intro ends
    rw [hquiet.buffers_nil]
    exact ⟨rfl, rfl⟩
  rw [(hnone _).1, (hnone _).2, ← hack, destroyBuffers, Run.ok_bind] at happly
  have hstep : flowNext rawConfig calcSHA1Sig host d (.ack emptyTempCache ⟨[], []⟩) =
      .ok { d with src := acknowledged d.src a.ack [], acks := [], acked := a.written } := by
    rw [flowNext, Direction.handOver]
    simp only [hacks, happly, Run.ok_bind]
    rfl
  refine ⟨_, _, hrun.step hstep, ?_, rfl, hwritten, rfl⟩
  refine ⟨?_, hquiet.plain, hquiet.key_eq, hquiet.isForward_eq, hquiet.bufRead_nil, rfl, hquiet.all_delivered, hquiet.dst_key,
    hquiet.not_abnormal, hquiet.writable, hquiet.queue_empty⟩
  show (if _ then ConnectionStatus.active else d.src.ci.status) = .active
  split
  · rfl
  · exact hquiet.active

theorem stream_runs (host : Bytes → Option (BitVec 32 × BitVec 16)) (k : Nat) (hk : k < 65536) :
    ∃ events d, (flowSystem rawConfig calcSHA1Sig host).Runs events d ∧ d.Quiet ∧ d.acks = [] ∧ d.acked = d.bytes ∧
      d.bytes = k * 65536 := by
  induction k with
  | zero =>
      obtain ⟨rctx, hrctx⟩ : ∃ rctx, startRabinCtx rawConfig = .ok rctx := ⟨_, rfl⟩
      have hci : ∀ forward, ∃ ci, createUserConnectionInfo rawConfig forward = .ok ci ∧ ci.isForward = forward := by
        intro forward
        exact ⟨_, by rw [createUserConnectionInfo, hrctx]; rfl, rfl⟩
      obtain ⟨src, hsrc, hforward⟩ := hci true
      obtain ⟨dst, hdst, -⟩ := hci false
      have hframe := (createUserConnectionInfo_ok hsrc).2
      refine ⟨[], _, .start ⟨true, false, src, dst, sampleConn, sampleConn.reverse, false, hsrc, hdst, rfl⟩, ?_, rfl, rfl, rfl⟩
      refine ⟨?_, rfl, rfl, hforward, ?_, ?_, rfl, rfl, rfl, rfl, rfl, rfl, rfl⟩
      · show src.status = .active
        rw [hframe]
      · show src.bufRead = []
        rw [hframe]
      · show src.chunkBufferList = []
        rw [hframe]
  | succ k ih =>
      obtain ⟨events, d, hrun, hquiet, hacks, hacked, hbytes⟩ := ih (by omega)
      have hlen : (List.replicate 65536 (7 : Byte)).length = 65536 := List.length_replicate
      obtain ⟨events₁, d₁, hrun₁, hquiet₁, hacked₁, hbytes₁, a, hacks₁, hwritten⟩ := stream_send hlen hrun hquiet hacks hacked
      have hepoch : SameEpoch 32 d₁.acked d₁.bytes := by
        show d₁.acked / 2 ^ 32 = d₁.bytes / 2 ^ 32
        rw [hacked₁, hbytes₁, hbytes]
        omega
      obtain ⟨events₂, d₂, hrun₂, hquiet₂, hacks₂, hacked₂, hbytes₂⟩ := stream_ack hrun₁ hquiet₁ hacks₁ hwritten hepoch
      exact ⟨events₂, d₂, hrun₂, hquiet₂, hacks₂, hacked₂, by rw [hbytes₂, hbytes₁, hbytes, Nat.succ_mul]⟩

end Stream

/-- The acknowledgement of the first `2 ^ 32` bytes is zero, and the process stops at an assertion. -/
theorem ack_overflow_stops : ∃ events d a, (flowSystem rawConfig calcSHA1Sig fun _ => none).Runs events d ∧ d.acks = [a] ∧
    d.bytes = 2 ^ 32 ∧ d.outstanding = 65536 ∧ a.ack = 0 ∧
    ∀ tmp hints, applyNameAck a.ack d.src tmp hints = .error .assertion := by
  obtain ⟨events, d, hrun, hquiet, hacks, hacked, hbytes⟩ := stream_runs (fun _ => none) 65535 (by decide)
  have hlen : (List.replicate 65536 (7 : Byte)).length = 65536 := List.length_replicate
  obtain ⟨events', d', hrun', -, hacked', hbytes', a, hacks', hwritten⟩ := stream_send hlen hrun hquiet hacks hacked
  have h := (Direction.flowSystem_balanced rawConfig_sized).holds hrun'
  have hfull : d'.bytes = 2 ^ 32 := hbytes'.trans (by rw [hbytes]; decide)
  have hzero : a.ack = 0 := by
    rw [(h.next_ack hacks').1, hwritten, hfull]
    rfl
  refine ⟨events', d', a, hrun', hacks', hfull, ?_, hzero, ?_⟩
  · rw [Direction.outstanding, hacked', hbytes', Nat.add_sub_cancel_left]
  · intro tmp hints
    have hlast : ¬ d'.src.lastAcked ≤ a.ack := by
      rw [h.sending.lastAcked_eq, hzero, hacked', hbytes]
      decide
    rw [applyNameAck, check, if_neg hlast]
    rfl

end BeagleCache

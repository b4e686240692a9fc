import BeagleCache.FlowControl
import BeagleCache.Wrapping

/-! The source of a direction: what a call of `ProcessUserData` adds to its counters and its buffers, and what an
acknowledgement takes away. The bytes are counted without a bound here, and the fields of the program have the last 32 bits
of the counts. -/

namespace BeagleCache

open Wrapping

@[simp] theorem blockBytes_nil : blockBytes [] = 0 := rfl

@[simp] theorem blockBytes_cons (o : Outgoing) (out : List Outgoing) :
    blockBytes (o :: out) = o.block.length + blockBytes out := by
  rw [blockBytes, List.map_cons, List.sum_cons]
  rfl

@[simp] theorem blockBytes_append (a b : List Outgoing) : blockBytes (a ++ b) = blockBytes a + blockBytes b := by
  rw [blockBytes, List.map_append, List.sum_append]
  rfl

/-- Where the data of the chunk buffers of some messages ends, `start` being where that of the first message starts. -/
def bufferEnds : Nat → List Outgoing → List Nat
  | _, [] => []
  | start, o :: out =>
      if o.chunks = [] then bufferEnds (start + o.block.length) out
      else (start + o.block.length) :: bufferEnds (start + o.block.length) out

/-- The data of the buffer ends at `e`. -/
def EndsAt (cb : ChunkBuffer) (e : Nat) : Prop := cb.seqNo + BitVec.ofNat 32 cb.length = BitVec.ofNat 32 e

theorem bufferEnds_append (start : Nat) (a b : List Outgoing) :
    bufferEnds start (a ++ b) = bufferEnds start a ++ bufferEnds (start + blockBytes a) b := by
  induction a generalizing start with
  | nil => rfl
  | cons o a ih =>
      rw [List.cons_append, bufferEnds, bufferEnds, ih, blockBytes_cons, Nat.add_assoc]
      split <;> rfl

theorem lt_of_mem_bufferEnds {start e : Nat} {out : List Outgoing} (hout : ∀ o ∈ out, 0 < o.block.length)
    (h : e ∈ bufferEnds start out) : start < e ∧ e ≤ start + blockBytes out := by
  induction out generalizing start with
  | nil => cases h
  | cons o out ih =>
      have hpos := hout o List.mem_cons_self
      have hrest := @ih (start + o.block.length) fun p hp => hout p (List.mem_cons_of_mem o hp)
      rw [blockBytes_cons]
      rw [bufferEnds] at h
      split at h
      · have := hrest h
        omega
      · rcases List.mem_cons.mp h with rfl | hmem
        · omega
        · have := hrest hmem
          omega

theorem bufferEnds_sorted {start : Nat} {out : List Outgoing} (hout : ∀ o ∈ out, 0 < o.block.length) :
    (bufferEnds start out).Pairwise (· < ·) := by
  induction out generalizing start with
  | nil => exact .nil
  | cons o out ih =>
      have hrest : ∀ p ∈ out, 0 < p.block.length := fun p hp => hout p (List.mem_cons_of_mem o hp)
      rw [bufferEnds]
      split
      · exact ih hrest
      · exact .cons (fun e he => (lt_of_mem_bufferEnds hrest he).1) (ih hrest)

/-! ## A call of `ProcessUserData` -/

section Source

variable {cfg : Config} {sha1 : Bytes → Sha1Name} {hint : Sha1Name → Bool} {host : Bytes → Option (BitVec 32 × BitVec 16)}
  {ci ci' : UserConnection} {sh sh' : Shared}

theorem Round.buffers {buffer : Bytes} {one : Nat} {o : Outgoing} (hcfg : cfg.Sized) (hctx : ci.ChunkReady)
    (h : Round cfg sha1 hint ci buffer sh one o ci' sh') :
    ∃ new, ci'.chunkBufferList = ci.chunkBufferList ++ new ∧ ((o.chunks = [] ∧ new = []) ∨
      (o.chunks ≠ [] ∧ ∃ cb, new = [cb] ∧ cb.seqNo = ci.bytesTX ∧ cb.length = one)) := by
  cases h with
  | raw hraw hmsg => exact ⟨[], (List.append_nil _).symm, .inl ⟨rfl, rfl⟩⟩
  | first hraw hpre hskip hnum hmsg => exact ⟨[], (List.append_nil _).symm, .inl ⟨rfl, rfl⟩⟩
  | @names r names low cands names' cb tmp' msg hraw hpre hfirst hblock hput hbuf hmsg =>
      refine ⟨[cb], rfl, .inr ⟨?_, cb, rfl, hbuf.seqNo_eq, hbuf.length_eq⟩⟩
      obtain ⟨-, -, hpos, -⟩ := doPreMRC_spec hcfg hctx hpre
      exact fun hnil => Tiling.tiles_ne_nil hblock.selected.tiles hpos (List.map_eq_nil_iff.mp hnil)

/-- What the rounds of a call add, `sent` being the bytes that were not acknowledged before. -/
structure Sends (cfg : Config) (sha1 : Bytes → Sha1Name) (ci : UserConnection) (sent : Nat) (r : UserDataResult) : Prop where
  announced : ∀ o ∈ r.out, Announced cfg sha1 o
  bytesTX_eq : r.ci.bytesTX = ci.bytesTX + BitVec.ofNat 32 (blockBytes r.out)
  numSent_eq : r.ci.numSent = BitVec.ofNat 32 (sent + blockBytes r.out)
  window_eq : r.ci.maxWindowSize = ci.maxWindowSize
  /-- The window was open before each message. -/
  open_before : ∀ front o, r.out = front ++ [o] → front ≠ [] → 5 * (sent + blockBytes front) ≤ 4 * ci.maxWindowSize.toNat
  open_after : r.blocked = false → r.out ≠ [] → 5 * (sent + blockBytes r.out) ≤ 4 * ci.maxWindowSize.toNat
  status_eq : r.ci.status = if r.blocked then .block else ci.status
  buffers : ∃ new, r.ci.chunkBufferList = ci.chunkBufferList ++ new ∧
    ∀ start, ci.bytesTX = BitVec.ofNat 32 start → List.Forall₂ EndsAt new (bufferEnds start r.out)

theorem Sends.nothing (cfg : Config) (sha1 : Bytes → Sha1Name) {ci : UserConnection} {sent : Nat} {r : UserDataResult}
    (hsent : ci.numSent = BitVec.ofNat 32 sent) (hout : r.out = []) (hblocked : r.blocked = false) (hci : r.ci = ci) :
    Sends cfg sha1 ci sent r where
  announced := by
    rw [hout]
    exact fun o ho => nomatch ho
  bytesTX_eq := by rw [hci, hout, blockBytes_nil, BitVec.add_zero]
  numSent_eq := by rw [hci, hout, hsent]; rfl
  window_eq := by rw [hci]
  open_before := by
    intro front o hfront
    rw [hout] at hfront
    exact absurd hfront.symm (List.append_ne_nil_of_right_ne_nil _ (List.cons_ne_nil o []))
  open_after := fun _ hne => absurd hout hne
  status_eq := by rw [hci, hblocked]; rfl
  buffers := by
    refine ⟨[], by rw [hci, List.append_nil], ?_⟩
    intro start _
    rw [hout]
    exact .nil

theorem Round.counts {buffer : Bytes} {one : Nat} {o : Outgoing} {sent : Nat} (hcfg : cfg.Sized) (hctx : ci.ChunkReady)
    (h : Round cfg sha1 hint ci buffer sh one o ci' sh') (hsent : ci.numSent = BitVec.ofNat 32 sent) :
    o.block.length = one ∧ (countSent ci' one).bytesTX = ci.bytesTX + BitVec.ofNat 32 one ∧
      (countSent ci' one).numSent = BitVec.ofNat 32 (sent + one) ∧ (countSent ci' one).maxWindowSize = ci.maxWindowSize ∧
      (countSent ci' one).bufRead = ci.bufRead ∧ (countSent ci' one).status = ci.status := by
  obtain ⟨hpos, hle, hblock, -, hframe⟩ := h.frame hcfg hctx
  refine ⟨by rw [hblock, List.length_take_of_le hle], ?_, ?_, ?_, ?_, ?_⟩
  · rw [hframe]; rfl
  · rw [hframe, BitVec.ofNat_add, ← hsent]; rfl
  · rw [hframe]; rfl
  · rw [hframe]; rfl
  · rw [hframe]; rfl

theorem Round.bufferEnds {buffer : Bytes} {one : Nat} {o : Outgoing} (hcfg : cfg.Sized) (hctx : ci.ChunkReady)
    (h : Round cfg sha1 hint ci buffer sh one o ci' sh') (hone : o.block.length = one) :
    ∃ new, ci'.chunkBufferList = ci.chunkBufferList ++ new ∧
      ∀ start, ci.bytesTX = BitVec.ofNat 32 start → List.Forall₂ EndsAt new (bufferEnds start [o]) := by
  obtain ⟨new, hlist, hnew⟩ := h.buffers hcfg hctx
  refine ⟨new, hlist, ?_⟩
  intro start hstart
  rcases hnew with ⟨hchunks, rfl⟩ | ⟨hchunks, cb, rfl, hseq, hlen⟩
  · rw [BeagleCache.bufferEnds, if_pos hchunks]
    exact .nil
  · rw [BeagleCache.bufferEnds, if_neg hchunks]
    refine .cons ?_ .nil
    rw [EndsAt, hseq, hstart, hlen, hone, BitVec.ofNat_add]

theorem windowFull_iff {sent : Nat} (hsent : ci.numSent = BitVec.ofNat 32 sent) (hsmall : sent < 2 ^ 32) :
    windowFull ci = true ↔ 4 * ci.maxWindowSize.toNat < 5 * sent := by
  rw [windowFull, decide_eq_true_iff, hsent, BitVec.toNat_ofNat, Nat.mod_eq_of_lt hsmall]

theorem Rounds.sends {srcOff sent : Nat} {r : UserDataResult} (hcfg : cfg.Sized) (hctx : ci.ChunkReady)
    (h : Rounds cfg sha1 hint srcOff ci sh r) (hbuf : ci.bufRead.length ≤ recvBufsize)
    (hsent : ci.numSent = BitVec.ofNat 32 sent) (hsmall : sent + (ci.bufRead.length - srcOff) < 2 ^ 32) : Sends cfg sha1 ci sent r := by
  induction h generalizing sent with
  | stop srcOff ci sh => exact .nothing cfg sha1 hsent rfl rfl rfl
  | @block srcOff one ci ci₁ sh sh₁ o hlt hround hfull =>
      have hbuffer : (ci.bufRead.drop srcOff).length ≤ recvBufsize := by
        rw [List.length_drop]
        omega
      obtain ⟨hone, hTX, hnum, hwindow, -, -⟩ := hround.counts hcfg hctx hsent
      obtain ⟨new, hlist, hnew⟩ := hround.bufferEnds hcfg hctx hone
      have hbytes : blockBytes [o] = one := by rw [blockBytes_cons, blockBytes_nil, hone, Nat.add_zero]
      refine ⟨?_, ?_, ?_, hwindow, ?_, ?_, rfl, new, hlist, hnew⟩
      · intro p hp
        rw [List.mem_singleton] at hp
        rw [hp]
        exact hround.announced hcfg hctx hbuffer
      · rw [hbytes]
        exact hTX
      · rw [hbytes]
        exact hnum
      · intro front p hfront hne
        have : front = [] := by
          have hlen := congrArg List.length hfront
          rw [List.length_append, List.length_singleton, List.length_singleton] at hlen
          exact List.eq_nil_of_length_eq_zero (by omega)
        exact absurd this hne
      · intro hfalse
        cases hfalse
  | @next srcOff one ci ci₁ sh sh₁ o rest hlt hround hopen hrest ih =>
      have hbuffer : (ci.bufRead.drop srcOff).length ≤ recvBufsize := by
        rw [List.length_drop]
        omega
      obtain ⟨hpos, hle, -⟩ := hround.frame hcfg hctx
      rw [List.length_drop] at hle
      obtain ⟨hone, hTX, hnum, hwindow, hbufRead, hstatus⟩ := hround.counts hcfg hctx hsent
      obtain ⟨new, hlist, hnew⟩ := hround.bufferEnds hcfg hctx hone
      have hsends := ih (hround.countSent_ready hcfg hctx) (by rw [hbufRead]; exact hbuf) hnum (by rw [hbufRead]; omega)
      have hfirst : 5 * (sent + one) ≤ 4 * ci.maxWindowSize.toNat := by
        have hnot := (windowFull_iff hnum (by omega)).not.mp (Bool.eq_false_iff.mp hopen)
        rw [hwindow] at hnot
        omega
      have hbytes : blockBytes (o :: rest.out) = one + blockBytes rest.out := by rw [blockBytes_cons, hone]
      refine ⟨?_, ?_, ?_, ?_, ?_, ?_, ?_, ?_⟩
      · intro p hp
        rcases List.mem_cons.mp hp with rfl | hmem
        · exact hround.announced hcfg hctx hbuffer
        · exact hsends.announced p hmem
      · show rest.ci.bytesTX = _
        rw [hsends.bytesTX_eq, hTX, hbytes, BitVec.ofNat_add, BitVec.add_assoc]
      · show rest.ci.numSent = _
        rw [hsends.numSent_eq, hbytes, Nat.add_assoc]
      · exact hsends.window_eq.trans hwindow
      · intro front p hfront hne
        cases front with
        | nil => exact absurd rfl hne
        | cons q front =>
            rw [List.cons_append] at hfront
            obtain ⟨rfl, htail⟩ := List.cons.inj hfront
            rw [blockBytes_cons, hone, ← Nat.add_assoc]
            by_cases hnil : front = []
            · rw [hnil, blockBytes_nil, Nat.add_zero]
              exact hfirst
            · have := hsends.open_before front p htail hnil
              rwa [hwindow] at this
      · intro hblocked _
        show 5 * (sent + blockBytes (o :: rest.out)) ≤ _
        rw [hbytes, ← Nat.add_assoc]
        by_cases hnil : rest.out = []
        · rw [hnil, blockBytes_nil, Nat.add_zero]
          exact hfirst
        · have := hsends.open_after hblocked hnil
          rwa [hwindow] at this
      · show rest.ci.status = _
        rw [hsends.status_eq, hstatus]
      · obtain ⟨more, hmore, hends⟩ := hsends.buffers
        have hmore' : rest.ci.chunkBufferList = ci₁.chunkBufferList ++ more := hmore
        refine ⟨new ++ more, ?_, ?_⟩
        · show rest.ci.chunkBufferList = _
          rw [hmore', hlist, List.append_assoc]
        · intro start hstart
          have hends' := hends (start + one) (by rw [hTX, hstart, BitVec.ofNat_add])
          have hsplit : BeagleCache.bufferEnds start (o :: rest.out) =
              BeagleCache.bufferEnds start [o] ++ BeagleCache.bufferEnds (start + one) rest.out := by
            rw [← List.singleton_append, bufferEnds_append, blockBytes_cons, blockBytes_nil, hone, Nat.add_zero]
          show List.Forall₂ EndsAt (new ++ more) (BeagleCache.bufferEnds start (o :: rest.out))
          rw [hsplit]
          exact List.rel_append (hnew start hstart) hends'

/-- What a call of `ProcessUserData` adds on a connection that was not told to end. -/
theorem Served.sends {sent : Nat} {r : UserDataResult} (hcfg : cfg.Sized) (hctx : ci.ChunkReady)
    (h : Served cfg sha1 hint host ci sh r) (hbuf : ci.bufRead.length ≤ recvBufsize)
    (hstatus : ci.status = .active ∨ ci.status = .block) (hsent : ci.numSent = BitVec.ofNat 32 sent)
    (hsmall : sent + recvBufsize < 2 ^ 32) :
    Sends cfg sha1 ci sent r ∧ r.ci.bufRead.length ≤ recvBufsize ∧ (r.out ≠ [] → ci.status = .active) := by
  cases h with
  | idle hout hblocked _ hci _ =>
      refine ⟨.nothing cfg sha1 hsent hout hblocked hci, by rw [hci]; exact hbuf, fun hne => absurd hout hne⟩
  | @sent ci₀ r₀ hopened hdst hopen hrounds hout hblocked hclose hsh hci =>
      obtain ⟨line, hframe⟩ := opened_frame hopened
      have hready := opened_ready hopened hctx
      have hbuf₀ : ci₀.bufRead.length ≤ recvBufsize := by
        rw [hframe]
        show (ci.bufRead.drop line).length ≤ recvBufsize
        rw [List.length_drop]
        omega
      have hstatus₀ : ci₀.status = ci.status := by rw [hframe]
      have hsends : Sends cfg sha1 ci₀ sent r₀ := hrounds.sends hcfg hready hbuf₀ (by rw [hframe]; exact hsent) (by omega)
      have hdone : r₀.ci.status ≠ .done := by
        rw [hsends.status_eq, hstatus₀]
        rcases hstatus with hs | hs
        · rw [hs]; split <;> decide
        · rw [hs]; split <;> decide
      have hfinish : finish r₀ = r₀ := by rw [finish, if_neg hdone]
      rw [hfinish] at hci
      refine ⟨⟨?_, ?_, ?_, ?_, ?_, ?_, ?_, ?_⟩, ?_, ?_⟩
      · rw [hout]
        exact hsends.announced
      · rw [hci, hout]
        show r₀.ci.bytesTX = _
        rw [hsends.bytesTX_eq, hframe]
      · rw [hci, hout]
        exact hsends.numSent_eq
      · rw [hci]
        show r₀.ci.maxWindowSize = _
        rw [hsends.window_eq, hframe]
      · have := hsends.open_before
        rw [hframe] at this
        rwa [hout]
      · have := hsends.open_after
        rw [hframe] at this
        rwa [hout, hblocked]
      · rw [hci, hblocked, ← hstatus₀]
        exact hsends.status_eq
      · have := hsends.buffers
        rw [hframe] at this
        rw [hci, hout]
        exact this
      · obtain ⟨-, hsame, -⟩ := hrounds.frame hcfg hready (Nat.zero_le _)
        rw [hci, hsame]
        show (ci₀.bufRead.drop r₀.numProcessed).length ≤ recvBufsize
        rw [List.length_drop]
        omega
      · intro hne
        rw [hout] at hne
        rcases hstatus with hs | hs
        · exact hs
        · exact absurd (hstatus₀.trans hs) (hopen hne)

end Source

/-! ## An acknowledgement -/

/-- `DestroyChunkBuffer2` on one buffer after the other. -/
def destroyBuffers (updateHint : Bool) : List ChunkBuffer → TempCache → HintTable → Run (TempCache × HintTable)
  | [], tmp, hints => .ok (tmp, hints)
  | cb :: rest, tmp, hints => do
      let r ← destroyChunkBuffer2 cb updateHint tmp hints
      destroyBuffers updateHint rest r.1 r.2

/-- The buffers whose data ends at or before `a`, `ends` being where the data of each ends. -/
def coveredBuffers (a : Nat) (list : List ChunkBuffer) (ends : List Nat) : List ChunkBuffer :=
  ((list.zip ends).filter fun p => p.2 ≤ a).map Prod.fst

/-- The other ones. -/
def keptBuffers (a : Nat) (list : List ChunkBuffer) (ends : List Nat) : List ChunkBuffer :=
  ((list.zip ends).filter fun p => a < p.2).map Prod.fst

/-- Where the comparison of `DestroyChunkBufferList` says which buffers an acknowledgement covers, it destroys these. -/
theorem destroyChunkBufferList_eq {ack : BitVec 32} {a : Nat} {list : List ChunkBuffer} {ends : List Nat} (updateHint : Bool)
    (tmp : TempCache) (hints : HintTable) (hends : List.Forall₂ EndsAt list ends) (hsorted : ends.Pairwise (· < ·))
    (htest : ∀ e ∈ ends, (ack = 0 ∨ BitVec.ofNat 32 e ≤ ack) ↔ e ≤ a) :
    destroyChunkBufferList ack updateHint list tmp hints =
      (destroyBuffers updateHint (coveredBuffers a list ends) tmp hints >>= fun r => .ok (keptBuffers a list ends, r.1, r.2)) := by
  induction hends generalizing tmp hints with
  | nil => rfl
  | @cons cb e list ends hcb hends ih =>
      obtain ⟨hfirst, hsorted⟩ := List.pairwise_cons.mp hsorted
      have htest' := htest e List.mem_cons_self
      have hrest := fun tmp hints => ih tmp hints hsorted fun x hx => htest x (List.mem_cons_of_mem e hx)
      rw [destroyChunkBufferList, show cb.seqNo + BitVec.ofNat 32 cb.length = BitVec.ofNat 32 e from hcb]
      by_cases hle : e ≤ a
      · have hcovered : coveredBuffers a (cb :: list) (e :: ends) = cb :: coveredBuffers a list ends := by
          simp [coveredBuffers, hle]
        have hkept : keptBuffers a (cb :: list) (e :: ends) = keptBuffers a list ends := by
          simp [keptBuffers, hle]
        rw [if_pos (htest'.mpr hle), hcovered, hkept, destroyBuffers]
        cases destroyChunkBuffer2 cb updateHint tmp hints with
        | error f => rfl
        | ok r =>
            rw [Run.ok_bind, Run.ok_bind]
            exact hrest r.1 r.2
      · -- the ends increase, so that none of the later buffers is covered
        have hlate : ∀ p ∈ list.zip ends, a < p.2 := by
          intro p hp
          have hmem : p.2 ∈ ends := (List.of_mem_zip hp).2
          have := hfirst p.2 hmem
          omega
        have hcovered : coveredBuffers a (cb :: list) (e :: ends) = [] := by
          rw [coveredBuffers, List.map_eq_nil_iff, List.filter_eq_nil_iff]
          intro p hp
          rw [List.zip_cons_cons] at hp
          rcases List.mem_cons.mp hp with rfl | hmem
          · simpa using hle
          · have := hlate p hmem
            simpa using this
        have hkept : keptBuffers a (cb :: list) (e :: ends) = cb :: list := by
          rw [keptBuffers, List.filter_eq_self.mpr]
          · rw [List.map_fst_zip]
            simp [hends.length_eq]
          · intro p hp
            rw [List.zip_cons_cons] at hp
            rcases List.mem_cons.mp hp with rfl | hmem
            · simpa using hle
            · simpa using hlate p hmem
        rw [if_neg (htest'.not.mpr hle), hcovered, hkept]
        rfl

theorem keptBuffers_ends {list : List ChunkBuffer} {ends : List Nat} (a : Nat) (hends : List.Forall₂ EndsAt list ends) :
    List.Forall₂ EndsAt (keptBuffers a list ends) (ends.filter fun e => a < e) := by
  induction hends with
  | nil => exact .nil
  | @cons cb e list ends hcb hends ih =>
      by_cases hlt : a < e
      · have hkept : keptBuffers a (cb :: list) (e :: ends) = cb :: keptBuffers a list ends := by
          simp [keptBuffers, hlt]
        rw [hkept, List.filter_cons_of_pos (by simpa using hlt)]
        exact .cons hcb ih
      · have hkept : keptBuffers a (cb :: list) (e :: ends) = keptBuffers a list ends := by
          simp [keptBuffers, hlt]
        rw [hkept, List.filter_cons_of_neg (by simpa using hlt)]
        exact ih

/-- The source behind an acknowledgement that left the buffers `list`. -/
def acknowledged (uf : UserFlow) (ack : BitVec 32) (list : List ChunkBuffer) : UserFlow :=
  { takeAck uf ack with ci := { (takeAck uf ack).ci with
      status := if uf.ci.status = .block ∧ windowOpen (takeAck uf ack).ci = true then .active else uf.ci.status
      chunkBufferList := list } }

/-- `ProcessNameAck` on a connection that was not told to end, where its assertions hold. -/
theorem applyNameAck_eq {ack : BitVec 32} {uf : UserFlow} (tmp : TempCache) (hints : HintTable)
    (hstatus : uf.ci.status = .active ∨ uf.ci.status = .block) (hlast : uf.lastAcked ≤ ack) (hbytes : ack ≤ uf.ci.bytesTX) :
    applyNameAck ack uf tmp hints = (destroyChunkBufferList ack true uf.ci.chunkBufferList tmp hints >>= fun r =>
      .ok (acknowledged uf ack r.1, decide (uf.ci.status = .block) && windowOpen (takeAck uf ack).ci, r.2)) := by
  have hsame : (takeAck uf ack).ci.status = uf.ci.status := rfl
  have hlist : (takeAck uf ack).ci.chunkBufferList = uf.ci.chunkBufferList := rfl
  unfold applyNameAck
  rw [check_of hlast, Run.ok_bind, check_of hbytes, Run.ok_bind]
  simp only [hsame, hlist]
  cases destroyChunkBufferList ack true uf.ci.chunkBufferList tmp hints with
  | error f => rfl
  | ok r =>
      have hfinsent : ∀ b : Bool, ¬ (if b then ConnectionStatus.active else uf.ci.status) = .finsent := by
        intro b
        rcases hstatus with hs | hs
        · rw [hs]; cases b <;> decide
        · rw [hs]; cases b <;> decide
      simp only [Run.ok_bind, Run.pure_eq_ok]
      rw [if_neg fun h => hfinsent _ h.1]
      simp only [acknowledged, Bool.and_eq_true, decide_eq_true_iff]

theorem applyNameAck_checks {ack : BitVec 32} {uf : UserFlow} {tmp : TempCache} {hints : HintTable}
    {r : UserFlow × Bool × TempCache × HintTable} (h : applyNameAck ack uf tmp hints = .ok r) :
    uf.lastAcked ≤ ack ∧ ack ≤ uf.ci.bytesTX := by
  obtain ⟨_, hlast, h⟩ := Run.bind_eq_ok.mp h
  obtain ⟨_, hbytes, -⟩ := Run.bind_eq_ok.mp h
  exact ⟨check_eq_ok.mp hlast, check_eq_ok.mp hbytes⟩

end BeagleCache

import BeagleCache.ControlFraming
import BeagleCache.UserRun

/-! The messages of a sender and the receive buffer of its peer. A message that is longer than `RECV_BUFSIZE` is never
complete at the peer, and nothing behind it on the control flow is read. -/

namespace BeagleCache

open Tiling Collapse

/-- The peer can get the message: it fits in the receive buffer, and its header is verified when it is there. -/
def FitsPeer (msg : Bytes) : Prop :=
  msg.length ≤ recvBufsize ∧ ∃ msgType, verifyControlHeader msg = .ok (.message msgType)

/-- Where the blocks of the data start. -/
inductive BlockStart (cfg : Config) (data : Bytes) : Nat → Prop
  | zero : BlockStart cfg data 0
  | next {off : Nat} : BlockStart cfg data off → off < data.length →
      BlockStart cfg data (off + blockSize cfg waproxRabinWindow waproxMrcMin waproxMrcMax (data.drop off))

/-- The longest message for the block at the head of the data: all of it, with a header for every boundary in it. There are
at most `g_ChunkSize` of these. -/
def blockMessageBound (cfg : Config) (data : Bytes) : Nat :=
  sizeofWANameDelivery + sizeofWAOneTree + blockSize cfg waproxRabinWindow waproxMrcMin waproxMrcMax data +
    sizeofWAOneChunk * min (blockBoundaries cfg waproxRabinWindow waproxMrcMin waproxMrcMax data).length cfg.chunkSize

/-- The data that is buffered when it is sent makes messages that fit: all of it, where it is sent as it is, and each of
its blocks else. -/
def MessagesFit (cfg : Config) (host : Bytes → Option (BitVec 32 × BitVec 16)) (ci : UserConnection) : Prop :=
  ∀ ci₀, opened host ci = some ci₀ → ¬ (ci₀.key.dstIP = 0 ∧ ci₀.key.dstPort = 0) → ci₀.status ≠ .block →
    if rawMode cfg ci₀.isForward then sizeofWARawMessage + ci₀.bufRead.length ≤ recvBufsize
    else ∀ off, BlockStart cfg ci₀.bufRead off → off < ci₀.bufRead.length →
      blockMessageBound cfg (ci₀.bufRead.drop off) ≤ recvBufsize

/-- The runs of a connection: what it is and what was sent so far. It reads as much as there is room for while it is
active; calls of `ProcessUserData` meet `fits`; the rest of the proxy leaves the buffer and the chunking alone. -/
inductive SourceRun (cfg : Config) (sha1 : Bytes → Sha1Name) (host : Bytes → Option (BitVec 32 × BitVec 16))
    (fits : UserConnection → Prop) : UserConnection → List Outgoing → Prop
  | start {isForward : Bool} {ci : UserConnection} : createUserConnectionInfo cfg isForward = .ok ci →
      SourceRun cfg sha1 host fits ci []
  | read {ci : UserConnection} {out : List Outgoing} {piece : Bytes} : SourceRun cfg sha1 host fits ci out → ci.status = .active →
      ci.bufRead.length + piece.length ≤ recvBufsize →
      SourceRun cfg sha1 host fits { ci with bufRead := ci.bufRead ++ piece } out
  | serve {ci : UserConnection} {out : List Outgoing} {hint : Sha1Name → Bool} {forceProcess : Bool} {sh : Shared}
      {r : UserDataResult} : SourceRun cfg sha1 host fits ci out → fits ci →
      serveUser cfg sha1 hint host forceProcess ci sh = .ok r → SourceRun cfg sha1 host fits r.ci (out ++ r.out)
  | other {ci ci' : UserConnection} {out : List Outgoing} : SourceRun cfg sha1 host fits ci out → ci'.bufRead = ci.bufRead →
      ci'.rctx = ci.rctx → SourceRun cfg sha1 host fits ci' out

/-! ## The number of candidates -/

section Count

variable {cfg : Config} {sha1 : Bytes → Sha1Name} {hint : Sha1Name → Bool} {psrc : Bytes} {r : PreMRC} {names names' : NameTable}
  {low : Nat} {cands : List OneCandidate}

/-- A list that tiles a block with nodes of a tree is no longer than the lowest level. -/
theorem tiles_length_le {rbSize numNames : Nat} {pli : List MRCPerLevelInfo} (ht : ChunkTree psrc rbSize numNames pli names)
    (htiles : Tiles OneCandidate.offset OneCandidate.length 0 rbSize cands)
    (hnode : ∀ c ∈ cands, ∃ k, k < numNames ∧ c.offset = offOf names k ∧ c.length = lenOf names k) :
    cands.length ≤ (pli.getD (pli.length - 1) default).numNames := by
  have hpos := ht.pli_pos
  have hlast : pli.length - 1 < pli.length := by omega
  -- the chunk of the lowest level at the start of a candidate
  have hchoose : ∀ c : OneCandidate, ∃ j, c ∈ cands → j ∈ (pli.getD (pli.length - 1) default).range ∧
      Holds (offOf names) (lenOf names) j c.offset := by
    intro c
    by_cases hc : c ∈ cands
    · obtain ⟨-, hend, hlen⟩ := tiles_mem htiles hc
      obtain ⟨j, hj, hholds⟩ := tiles_cover (ht.tiles _ hlast) (Nat.zero_le c.offset) (show c.offset < rbSize by omega)
      exact ⟨j, fun _ => ⟨hj, hholds⟩⟩
    · exact ⟨0, fun h => absurd h hc⟩
  choose leaf hleaf using hchoose
  -- it lies inside the candidate, so no two candidates share it
  have hinj : ∀ c ∈ cands, ∀ d ∈ cands, leaf c = leaf d → c = d := by
    intro c hc d hd heq
    obtain ⟨hj, hjc⟩ := hleaf c hc
    obtain ⟨hj', hjd⟩ := hleaf d hd
    rw [← heq] at hjd
    obtain ⟨k, hk, hoff, hlen⟩ := hnode c hc
    obtain ⟨hjnum, hjlevel⟩ := (ht.mem_range_iff hlast).mp hj
    have hklevel := (ht.mem_level hk).1
    have hdpos := (tiles_mem htiles hd).2.2
    have hcpos := (tiles_mem htiles hc).2.2
    have hkx : Holds (offOf names) (lenOf names) k c.offset := ⟨by omega, by omega⟩
    have hkd := (ht.levelTree hlast).holds_of_below ⟨hk, by omega⟩ ⟨hjnum, by omega⟩ hkx hjc
      (show (names k).level ≤ (names (leaf c)).level by omega) hjd
    have hcd : Holds OneCandidate.offset OneCandidate.length c d.offset := by
      obtain ⟨h1, h2⟩ := hkd
      have h1' : offOf names k ≤ d.offset := h1
      have h2' : d.offset < offOf names k + lenOf names k := h2
      exact ⟨by omega, by omega⟩
    exact tiles_unique htiles hc hd hcd ⟨le_refl _, by omega⟩
  have hnodup : cands.Nodup := by
    refine (tiles_pairwise htiles).imp_of_mem ?_
    rintro c d hc hd hle rfl
    have := (tiles_mem htiles hc).2.2
    omega
  have hmap : (cands.map leaf).Nodup := hnodup.map_on hinj
  have hsub : cands.map leaf ⊆ (pli.getD (pli.length - 1) default).range := by
    intro j hj
    obtain ⟨c, hc, rfl⟩ := List.mem_map.mp hj
    exact (hleaf c hc).1
  have hle := (hmap.subperm hsub).length_le
  rwa [List.length_map, MRCPerLevelInfo.range, List.length_range'] at hle

theorem levelNames_numNames {table : NameTable} {psrc : Bytes} {levels : List (List (Nat × Nat))} {info : MRCPerLevelInfo}
    {level index : Nat} (h : info ∈ (levelNames table psrc level index levels).map Prod.fst) :
    ∃ L ∈ levels, info.numNames = L.length := by
  induction levels generalizing level index with
  | nil => cases h
  | cons L levels ih =>
      rw [levelNames, List.map_cons] at h
      rcases List.mem_cons.mp h with rfl | hmem
      · exact ⟨L, by simp, rfl⟩
      · obtain ⟨L', hL', heq⟩ := ih hmem
        exact ⟨L', List.mem_cons_of_mem L hL', heq⟩

/-- A block has no more candidates than boundaries. -/
theorem candidates_le_boundaries {window minSize maxSize : Nat} {rctx : RabinCtx} {table : NameTable} (hcfg : cfg.Sized)
    (hctx : rctx.Ready window minSize maxSize) (hpre : doPreMRC cfg table rctx psrc = .ok r)
    (hblock : SelectedBlock cfg sha1 hint psrc r names low cands names') :
    cands.length ≤ min (blockBoundaries cfg window minSize maxSize psrc).length cfg.chunkSize := by
  obtain ⟨hlt, hsrc, hmax, hfit⟩ := doPreMRC_ok hcfg hctx hpre
  have hnode : ∀ c ∈ cands, ∃ k, k < r.pNames.length ∧ c.offset = offOf names k ∧ c.length = lenOf names k := by
    intro c hc
    obtain ⟨k, hchosen, rfl⟩ := (hblock.chosen c).mp hc
    refine ⟨k, hchosen.1.node.1, ?_, ?_⟩
    · exact congrFun hblock.same.sameTree.offOf_eq k
    · exact congrFun hblock.same.sameTree.lenOf_eq k
  have hle := tiles_length_le hblock.tree hblock.selected.tiles hnode
  obtain ⟨rctx', heq, -⟩ := doPreMRC_eq hcfg hlt hctx table hsrc hmax hfit
  rw [heq] at hpre
  cases hpre
  have hpos := hblock.tree.pli_pos
  have hmem : (preMRCOf table psrc (blockSize cfg window minSize maxSize psrc) (blockLevels cfg window minSize maxSize psrc)
      rctx').pli.getD ((preMRCOf table psrc (blockSize cfg window minSize maxSize psrc)
        (blockLevels cfg window minSize maxSize psrc) rctx').pli.length - 1) default ∈
      (levelNames table psrc 0 0 (blockLevels cfg window minSize maxSize psrc)).map Prod.fst := by
    rw [List.getD_eq_getElem _ _ (by omega)]
    exact List.getElem_mem _
  obtain ⟨L, hL, hnum⟩ := levelNames_numNames hmem
  have hbound := blockLevels_level_le hL
  rw [hnum] at hle
  exact le_min (hle.trans hbound) ((hle.trans hbound).trans hfit)

end Count

/-! ## The messages -/

section Messages

variable {cfg : Config} {sha1 : Bytes → Sha1Name} {hint : Sha1Name → Bool} {host : Bytes → Option (BitVec 32 × BitVec 16)}
  {ci ci' : UserConnection} {sh sh' : Shared}

theorem builtAs_fitsPeer (cfg : Config) (sha1 : Bytes → Sha1Name) {m : ControlMessage} {msg : Bytes}
    (hbuilt : m.BuiltAs cfg sha1 msg) (hlen : msg.length ≤ recvBufsize) :
    FitsPeer msg := by
  have hsmall : msg.length < 2 ^ 31 := lt_of_le_of_lt hlen (by decide)
  obtain ⟨rfl, hid, -⟩ := builtAs_bytes hbuilt hsmall
  have hverify := verifyControlHeader_bytes hid [] (by rw [List.append_nil]; exact hsmall)
  rw [List.append_nil] at hverify
  exact ⟨hlen, m.type, hverify⟩

theorem buildWARawMessage_length {id : ConnectionID} {message msg : Bytes} (h : buildWARawMessage id message = .ok msg) :
    msg.length = sizeofWARawMessage + message.length := by
  obtain ⟨_, -, h⟩ := Run.bind_eq_ok.mp h
  obtain ⟨hdr, hfill, hret⟩ := Run.bind_eq_ok.mp h
  cases hret
  have hhdr := fillControlHeader_length hfill
  simp only [List.length_append, List.length_cons, List.length_nil, htonl_length, hhdr, sizeofWAControlHeader, sizeofWARawMessage]
  omega

/-- The contents of a message are part of the block. -/
theorem wireLength_sum_le {offset n : Nat} {cands : List OneCandidate}
    (htiles : Tiles OneCandidate.offset OneCandidate.length offset n cands) :
    (cands.map OneCandidate.wireLength).sum ≤ sizeofWAOneChunk * cands.length + (n - offset) := by
  induction cands generalizing offset with
  | nil => exact Nat.zero_le _
  | cons c rest ih =>
      obtain ⟨hoff, hpos, htail⟩ := htiles
      have hrest := ih htail
      have hend := tiles_le htail
      have hone : c.wireLength ≤ sizeofWAOneChunk + c.length := by
        unfold OneCandidate.wireLength
        split <;> omega
      rw [List.map_cons, List.sum_cons, List.length_cons, Nat.mul_succ]
      omega

theorem buildWANameTreeDelivery3_length {id : ConnectionID} {psrc msg : Bytes} {pNames : NameTable} {cands : List OneCandidate} {n : Nat}
    (htiles : Tiles OneCandidate.offset OneCandidate.length 0 n cands) (hsrc : n ≤ psrc.length)
    (hentry : ∀ c ∈ cands, (pNames c.index).sha1name = c.sha1name)
    (hverify : cfg.integrityCheck = true → ∀ c ∈ cands, c.sha1name = sha1 (c.slice psrc))
    (h : buildWANameTreeDelivery3 cfg sha1 id psrc pNames cands cands.length (cands.map OneCandidate.wireLength).sum = .ok msg) :
    msg.length = sizeofWANameDelivery + sizeofWAOneTree + (cands.map OneCandidate.wireLength).sum := by
  have hid : id.Known := by
    obtain ⟨chunks, -, h⟩ := Run.bind_eq_ok.mp h
    obtain ⟨hdr, hfill, -⟩ := Run.bind_eq_ok.mp h
    exact (fillControlHeader_ok hfill).1
  obtain ⟨hdr, hfill, heq⟩ := buildWANameTreeDelivery3_eq hid htiles hsrc hentry hverify
  rw [heq] at h
  cases h
  have hhdr := fillControlHeader_length hfill
  have hchunks := flatMap_bytes_length htiles hsrc
  rw [← List.flatMap_map] at hchunks
  simp only [List.length_append, List.length_cons, List.length_nil, htonl_length, hhdr, hchunks, sizeofWAControlHeader,
    sizeofWANameDelivery, sizeofWAOneTree]
  omega

/-- The message of a round fits where the bound for its block does. -/
theorem Round.fitsPeer {buffer : Bytes} {one : Nat} {o : Outgoing} (hcfg : cfg.Sized) (hctx : ci.ChunkReady)
    (h : Round cfg sha1 hint ci buffer sh one o ci' sh')
    (hfits : if rawMode cfg ci.isForward then sizeofWARawMessage + buffer.length ≤ recvBufsize
      else blockMessageBound cfg buffer ≤ recvBufsize) : FitsPeer o.message := by
  cases h with
  | raw hraw hmsg =>
      rw [if_pos hraw] at hfits
      exact builtAs_fitsPeer cfg sha1 (.rawMessage hmsg) (by rw [buildWARawMessage_length hmsg]; exact hfits)
  | @first r msg hraw hpre hskip hnum hmsg =>
      rw [if_neg (by rw [hraw]; decide)] at hfits
      obtain ⟨-, hsize, -, hle⟩ := doPreMRC_spec hcfg hctx hpre
      refine builtAs_fitsPeer cfg sha1 (.rawMessage hmsg) ?_
      rw [buildWARawMessage_length hmsg, List.length_take]
      rw [blockMessageBound, ← hsize] at hfits
      simp only [sizeofWARawMessage, sizeofWANameDelivery, sizeofWAOneTree] at hfits ⊢
      omega
  | @names r names low cands names' cb tmp' msg hraw hpre hfirst hblock hput hbuffer hmsg =>
      rw [if_neg (by rw [hraw]; decide)] at hfits
      obtain ⟨-, hsize, -, hle⟩ := doPreMRC_spec hcfg hctx hpre
      have hselected := hblock.selected
      have hentry : ∀ c ∈ cands, (names' c.index).sha1name = c.sha1name := fun c hc =>
        (congrArg OneCandidate.sha1name (hselected.entry c hc)).symm
      have hlen := buildWANameTreeDelivery3_length hselected.tiles hle hentry (fun _ => hselected.name_eq) hmsg
      have hsum := wireLength_sum_le hselected.tiles
      have hcount := Nat.mul_le_mul_left sizeofWAOneChunk (candidates_le_boundaries hcfg hctx hpre hblock)
      refine builtAs_fitsPeer cfg sha1 (.nameDelivery hmsg) ?_
      rw [blockMessageBound, ← hsize] at hfits
      show msg.length ≤ recvBufsize
      omega

/-- What has to fit at a block start. -/
theorem roundFits {srcOff : Nat} (hstart : rawMode cfg ci.isForward = false → BlockStart cfg ci.bufRead srcOff)
    (hlt : srcOff < ci.bufRead.length)
    (hfits : if rawMode cfg ci.isForward then sizeofWARawMessage + ci.bufRead.length ≤ recvBufsize
      else ∀ off, BlockStart cfg ci.bufRead off → off < ci.bufRead.length →
        blockMessageBound cfg (ci.bufRead.drop off) ≤ recvBufsize) :
    if rawMode cfg ci.isForward then sizeofWARawMessage + (ci.bufRead.drop srcOff).length ≤ recvBufsize
      else blockMessageBound cfg (ci.bufRead.drop srcOff) ≤ recvBufsize := by
  by_cases hraw : rawMode cfg ci.isForward = true
  · rw [if_pos hraw] at hfits ⊢
    rw [List.length_drop]
    omega
  · rw [if_neg hraw] at hfits ⊢
    exact hfits srcOff (hstart (Bool.eq_false_iff.mpr hraw)) hlt

/-- A round of a connection that chunks ends where the next block starts. -/
theorem Round.blockStart {srcOff one : Nat} {o : Outgoing} (hcfg : cfg.Sized) (hctx : ci.ChunkReady)
    (h : Round cfg sha1 hint ci (ci.bufRead.drop srcOff) sh one o ci' sh') (hstart : BlockStart cfg ci.bufRead srcOff)
    (hlt : srcOff < ci.bufRead.length) (hraw : rawMode cfg ci.isForward = false) : BlockStart cfg ci.bufRead (srcOff + one) := by
  cases h with
  | raw htrue => rw [htrue] at hraw; cases hraw
  | first _ hpre =>
      rw [(doPreMRC_spec hcfg hctx hpre).2.1]
      exact .next hstart hlt
  | names _ hpre =>
      rw [(doPreMRC_spec hcfg hctx hpre).2.1]
      exact .next hstart hlt

/-- The messages of a loop fit where those of its data do. -/
theorem Rounds.fitsPeer {srcOff : Nat} {r : UserDataResult} (hcfg : cfg.Sized) (hctx : ci.ChunkReady)
    (h : Rounds cfg sha1 hint srcOff ci sh r) (hstart : rawMode cfg ci.isForward = false → BlockStart cfg ci.bufRead srcOff)
    (hfits : if rawMode cfg ci.isForward then sizeofWARawMessage + ci.bufRead.length ≤ recvBufsize
      else ∀ off, BlockStart cfg ci.bufRead off → off < ci.bufRead.length →
        blockMessageBound cfg (ci.bufRead.drop off) ≤ recvBufsize) :
    ∀ o ∈ r.out, FitsPeer o.message := by
  induction h with
  | stop => simp
  | @block srcOff one ci ci₁ sh sh₁ o hlt hround hfull =>
      have hmsg := hround.fitsPeer hcfg hctx (roundFits hstart hlt hfits)
      simpa using hmsg
  | @next srcOff one ci ci₁ sh sh₁ o rest hlt hround hfull hrest ih =>
      have hmsg := hround.fitsPeer hcfg hctx (roundFits hstart hlt hfits)
      obtain ⟨-, -, -, hready, hframe⟩ := hround.frame hcfg hctx
      have hbuf : (countSent ci₁ one).bufRead = ci.bufRead := by rw [hframe]; rfl
      have hforward : (countSent ci₁ one).isForward = ci.isForward := by rw [hframe]; rfl
      have hnext : rawMode cfg (countSent ci₁ one).isForward = false →
          BlockStart cfg (countSent ci₁ one).bufRead (srcOff + one) := by
        rw [hbuf, hforward]
        exact fun hraw => hround.blockStart hcfg hctx (hstart hraw) hlt hraw
      have hall := ih hready hnext (by rw [hbuf, hforward]; exact hfits)
      intro x hx
      rcases List.mem_cons.mp hx with rfl | hmem
      · exact hmsg
      · exact hall x hmem

/-- What a call sends fits where its data does. -/
theorem Served.fitsPeer {r : UserDataResult} (hcfg : cfg.Sized) (hctx : ci.ChunkReady) (h : Served cfg sha1 hint host ci sh r)
    (hfits : MessagesFit cfg host ci) : ∀ o ∈ r.out, FitsPeer o.message := by
  cases h with
  | idle hout => simp [hout]
  | @sent ci₀ r₀ hopened hdst hblock hrounds hout =>
      intro o ho
      rw [hout] at ho
      have hstatus := hblock (List.ne_nil_of_mem ho)
      exact hrounds.fitsPeer hcfg (opened_ready hopened hctx) (fun _ => .zero) (hfits ci₀ hopened hdst hstatus) o ho

theorem SourceRun.ready {fits : UserConnection → Prop} {out : List Outgoing} (hcfg : cfg.Sized)
    (h : SourceRun cfg sha1 host fits ci out) : ci.ChunkReady := by
  induction h with
  | start hcreate => exact (createUserConnectionInfo_ok hcreate).1
  | read _ _ _ ih => exact ih
  | serve _ _ hserve ih => exact (serveUser_served hcfg ih hserve).ready hcfg ih
  | other _ _ hrctx ih =>
      unfold UserConnection.ChunkReady
      rw [hrctx]
      exact ih

/-- In every run of a connection whose calls find data that fits, every message it sends fits in the receive buffer of
the peer. -/
theorem messages_fit {out : List Outgoing} (hcfg : cfg.Sized) (h : SourceRun cfg sha1 host (MessagesFit cfg host) ci out) :
    ∀ o ∈ out, FitsPeer o.message := by
  induction h with
  | start => simp
  | read _ _ _ ih => exact ih
  | @serve ci out hint forceProcess sh r hrun hfits hserve ih =>
      intro o ho
      rcases List.mem_append.mp ho with hold | hnew
      · exact ih o hold
      · exact (serveUser_served hcfg (hrun.ready hcfg) hserve).fitsPeer hcfg (hrun.ready hcfg) hfits o hnew
  | other _ _ _ ih => exact ih

end Messages

/-- A proxy that sends what its clients write as it comes. -/
def rawConfig : Config := { sampleConfig with clientChunking := false }

theorem rawConfig_sized : rawConfig.Sized := ⟨by decide, by decide, by decide, 1, rfl⟩

/-- A client that wrote `data`, all of which was read and sent at once. -/
theorem rawRun (fits : UserConnection → Prop) (data : Bytes) (hpos : 0 < data.length) (hlen : data.length ≤ recvBufsize)
    (hfits : ∀ ci : UserConnection, ci.bufRead = data → ci.isForward = true → ci.isHttpProxy = false → fits ci) :
    ∃ ci o, SourceRun rawConfig calcSHA1Sig (fun _ => none) fits ci [o] ∧ o.message.length = sizeofWARawMessage + data.length := by
  obtain ⟨rctx, hrctx⟩ : ∃ rctx, startRabinCtx rawConfig = .ok rctx := ⟨_, rfl⟩
  obtain ⟨ci, hcreate, hci⟩ : ∃ ci, createUserConnectionInfo rawConfig true = .ok ci ∧ ci.status = .active ∧ ci.bufRead = [] ∧
      ci.isForward = true ∧ ci.isHttpProxy = false := ⟨_, by rw [createUserConnectionInfo, hrctx]; rfl, rfl, rfl, rfl, rfl⟩
  obtain ⟨hstatus, hbuf, hforward, hproxy⟩ := hci
  have hkey : SourceRun rawConfig calcSHA1Sig (fun _ => none) fits { ci with key := sampleConn } [] := .other (.start hcreate) rfl rfl
  have hread : SourceRun rawConfig calcSHA1Sig (fun _ => none) fits { ci with key := sampleConn, bufRead := ci.bufRead ++ data } [] :=
    .read hkey hstatus (by rw [hbuf]; simpa using hlen)
  rw [hbuf, List.nil_append] at hread
  obtain ⟨msg, hmsg⟩ : ∃ msg, buildWARawMessage sampleConn data = .ok msg := by
    rw [buildWARawMessage, check_of hpos, Run.ok_bind, fillControlHeader_eq (by decide)]
    exact ⟨_, rfl⟩
  let user : UserConnection := { ci with key := sampleConn, bufRead := data }
  have hdst : ¬ (sampleConn.dstIP = 0 ∧ sampleConn.dstPort = 0) := by decide
  have hactive : user.status = .active := hstatus
  have hraw : rawMode rawConfig user.isForward = true := by
    show rawMode rawConfig ci.isForward = true
    rw [hforward]
    rfl
  obtain ⟨r, hserve, hout⟩ : ∃ r, serveUser rawConfig calcSHA1Sig (fun _ => false) (fun _ => none) false user
      ⟨emptyTempCache, default⟩ = .ok r ∧ r.out = [⟨msg, data, []⟩] :=
    ⟨_, serveUser_raw (show user.isHttpProxy = false from hproxy) hdst hactive hraw hmsg false, rfl⟩
  have hsent := SourceRun.serve hread (hfits _ rfl hforward hproxy) hserve
  rw [hout] at hsent
  exact ⟨r.ci, _, hsent, buildWARawMessage_length hmsg⟩

theorem messages_fit_sample : ∃ ci o, SourceRun rawConfig calcSHA1Sig (fun _ => none) (MessagesFit rawConfig fun _ => none) ci [o] ∧
    FitsPeer o.message := by
  obtain ⟨ci, o, hrun, -⟩ := rawRun (MessagesFit rawConfig fun _ => none) [7] (by decide) (by decide) (by
    intro ci hbuf hforward hproxy ci₀ hopened hdst hstatus
    rw [opened, if_neg (by rw [hproxy]; decide)] at hopened
    cases hopened
    rw [if_pos (by rw [hforward]; rfl), hbuf]
    decide)
  exact ⟨ci, o, hrun, messages_fit rawConfig_sized hrun o (List.mem_singleton_self o)⟩

/-- A raw message for all that the buffer holds is longer than the buffer of the peer. -/
theorem raw_message_too_long : ∃ ci o, SourceRun rawConfig calcSHA1Sig (fun _ => none) (fun _ => True) ci [o] ∧
    o.message.length = recvBufsize + 23 ∧ ¬ FitsPeer o.message := by
  obtain ⟨ci, o, hrun, hlen⟩ := rawRun (fun _ => True) (List.replicate recvBufsize 0)
    (by rw [List.length_replicate]; decide) (by rw [List.length_replicate]) (fun _ _ _ _ => trivial)
  rw [List.length_replicate] at hlen
  refine ⟨ci, o, hrun, hlen.trans (Nat.add_comm _ _), ?_⟩
  rintro ⟨hfits, -⟩
  rw [hlen] at hfits
  exact absurd hfits (by decide)

end BeagleCache

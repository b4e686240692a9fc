import BeagleCache.ControlChannel

/-! What `ProcessUserData` can do. A round of its loop takes bytes from the front of the buffer and sends one message
for them; a call is some rounds, perhaps behind a request line that is taken out. The relations here say so once, and
the properties of a sender are derived from them. -/

namespace BeagleCache

open Run

/-- The chunking context of the connection is as `CreateUserConnectionInfo` set it up. -/
def UserConnection.ChunkReady (ci : UserConnection) : Prop :=
  ci.rctx.Ready waproxRabinWindow waproxMrcMin waproxMrcMax

/-- `MAX_WINDOW_SIZE`. -/
def maxWindow : Nat := 60 * 1024 * 1024

/-- `CreateNewConnectionInfo` and `CreateUserConnectionInfo`; the addresses are set by the callers. -/
def createUserConnectionInfo (cfg : Config) (isForward : Bool) : Run UserConnection := do
  let rctx ← startRabinCtx cfg
  return {
    status := .active
    bufRead := []
    key := ⟨0, 0, 0, 0⟩
    isForward := isForward
    isHttpProxy := false
    rctx := rctx
    bytesTX := 0
    numChunks := 0
    numSent := 0
    maxWindowSize := BitVec.ofNat 32 maxWindow
    chunkBufferList := []
    seqNo := 0
    reassembleList := []
    sent := [] }

theorem createUserConnectionInfo_ok {cfg : Config} {isForward : Bool} {ci : UserConnection}
    (h : createUserConnectionInfo cfg isForward = .ok ci) : ci.ChunkReady ∧
      ci = { ci with status := .active, bufRead := [], isHttpProxy := false, bytesTX := 0, numChunks := 0, numSent := 0,
                     maxWindowSize := BitVec.ofNat 32 maxWindow, chunkBufferList := [], seqNo := 0, reassembleList := [], sent := [] } := by
  obtain ⟨rctx, hrctx, hret⟩ := bind_eq_ok.mp h
  cases hret
  exact ⟨initRabinCtx_ready (by decide) hrctx, rfl⟩

/-- A buffer that `CreateNewChunkBuffer2` made for a block. -/
structure BufferFor (cands : List OneCandidate) (seqNo : BitVec 32) (length : Nat) (cb : ChunkBuffer) : Prop where
  chunkList_eq : cb.chunkList = cands
  seqNo_eq : cb.seqNo = seqNo
  length_eq : cb.length = length
  lowLevel_nonneg : 0 ≤ cb.lowLevel

/-- The connection behind `DoPreMRC`. -/
def chunked (ci : UserConnection) (r : PreMRC) : UserConnection := { ci with rctx := r.rctx, numChunks := ci.numChunks + 1 }

section Rounds

variable (cfg : Config) (sha1 : Bytes → Sha1Name) (hint : Sha1Name → Bool)

/-- A round on the bytes in `buffer`: how many it takes, the message, and the state behind it. -/
inductive Round (ci : UserConnection) (buffer : Bytes) (sh : Shared) : Nat → Outgoing → UserConnection → Shared → Prop
  | raw {msg : Bytes} : rawMode cfg ci.isForward = true → buildWARawMessage ci.key buffer = .ok msg →
      Round ci buffer sh buffer.length ⟨msg, buffer, []⟩ ci sh
  | first {r : PreMRC} {msg : Bytes} : rawMode cfg ci.isForward = false → doPreMRC cfg sh.table ci.rctx buffer = .ok r →
      cfg.skipFirstChunk = true → ci.numChunks + 1 ≤ 1 → buildWARawMessage ci.key (buffer.take r.rbSize) = .ok msg →
      Round ci buffer sh r.rbSize ⟨msg, buffer.take r.rbSize, []⟩ (chunked ci r) { sh with table := tableOf sh.table r.pNames }
  | names {r : PreMRC} {names : NameTable} {low : Nat} {cands : List OneCandidate} {names' : NameTable} {cb : ChunkBuffer}
      {tmp' : TempCache} {msg : Bytes} : rawMode cfg ci.isForward = false → doPreMRC cfg sh.table ci.rctx buffer = .ok r →
      ¬ (cfg.skipFirstChunk = true ∧ ci.numChunks + 1 ≤ 1) → SelectedBlock cfg sha1 hint buffer r names low cands names' →
      putTempCacheCandidateList cfg sha1 buffer r.rbSize 0 cands sh.tmp = .ok tmp' →
      BufferFor cands ci.bytesTX r.rbSize cb →
      buildWANameTreeDelivery3 cfg sha1 ci.key buffer names' cands cands.length (cands.map OneCandidate.wireLength).sum = .ok msg →
      Round ci buffer sh r.rbSize ⟨msg, buffer.take r.rbSize, cands.map (OneCandidate.slice buffer)⟩
        { chunked ci r with chunkBufferList := ci.chunkBufferList ++ [cb] } ⟨tmp', names'⟩

/-- The rounds of a loop from `srcOff` on. -/
inductive Rounds : Nat → UserConnection → Shared → UserDataResult → Prop
  | stop (srcOff : Nat) (ci : UserConnection) (sh : Shared) : Rounds srcOff ci sh ⟨srcOff, [], false, none, ci, sh⟩
  | block {srcOff one : Nat} {ci ci₁ : UserConnection} {sh sh₁ : Shared} {o : Outgoing} : srcOff < ci.bufRead.length →
      Round cfg sha1 hint ci (ci.bufRead.drop srcOff) sh one o ci₁ sh₁ → windowFull (countSent ci₁ one) = true →
      Rounds srcOff ci sh ⟨srcOff + one, [o], true, none, { countSent ci₁ one with status := .block }, sh₁⟩
  | next {srcOff one : Nat} {ci ci₁ : UserConnection} {sh sh₁ : Shared} {o : Outgoing} {rest : UserDataResult} :
      srcOff < ci.bufRead.length → Round cfg sha1 hint ci (ci.bufRead.drop srcOff) sh one o ci₁ sh₁ →
      windowFull (countSent ci₁ one) = false → Rounds (srcOff + one) (countSent ci₁ one) sh₁ rest →
      Rounds srcOff ci sh { rest with out := o :: rest.out }

end Rounds

section Cases

variable {cfg : Config} {sha1 : Bytes → Sha1Name} {hint : Sha1Name → Bool} {ci ci' : UserConnection} {sh sh' : Shared}

theorem doPreMRC_spec {window minSize maxSize : Nat} {rctx : RabinCtx} {table : NameTable} {psrc : Bytes} {r : PreMRC}
    (hcfg : cfg.Sized) (hctx : rctx.Ready window minSize maxSize) (hpre : doPreMRC cfg table rctx psrc = .ok r) :
    r.rctx.Ready window minSize maxSize ∧ r.rbSize = blockSize cfg window minSize maxSize psrc ∧ 0 < r.rbSize ∧
      r.rbSize ≤ psrc.length := by
  obtain ⟨hlt, hsrc, hmax, hfit⟩ := doPreMRC_ok hcfg hctx hpre
  obtain ⟨rctx', heq, hready⟩ := doPreMRC_eq hcfg hlt hctx table hsrc hmax hfit
  obtain ⟨hpos, hle⟩ := blockSize_bounds cfg window minSize hsrc hmax
  rw [heq] at hpre
  cases hpre
  exact ⟨hready, rfl, hpos, hle.trans (min_le_left _ _)⟩

theorem createNewChunkBuffer2_ok {pBlock : Bytes} {length : Nat} {seqNo : BitVec 32} {pMRC : NameTable} {numNames : Nat}
    {list : List OneCandidate} {lowLevel : Nat} {tmp : TempCache} {r : ChunkBuffer × TempCache}
    (h : createNewChunkBuffer2 cfg sha1 pBlock length seqNo pMRC numNames list lowLevel tmp = .ok r) :
    BufferFor list seqNo length r.1 ∧ putTempCacheCandidateList cfg sha1 pBlock length 0 list tmp = .ok r.2 := by
  unfold createNewChunkBuffer2 at h
  obtain ⟨cb, hcreate, h⟩ := bind_eq_ok.mp h
  obtain ⟨tmp', hput, hret⟩ := bind_eq_ok.mp h
  cases hret
  unfold createNewChunkBuffer at hcreate
  obtain ⟨_, -, hcreate⟩ := bind_eq_ok.mp hcreate
  obtain ⟨_, -, hcreate⟩ := bind_eq_ok.mp hcreate
  obtain ⟨_, -, hcreate⟩ := bind_eq_ok.mp hcreate
  cases hcreate
  exact ⟨⟨rfl, rfl, rfl, Int.natCast_nonneg _⟩, hput⟩

theorem processOneRabinChunking2_round (hcfg : cfg.Sized) (hctx : ci.ChunkReady) (hraw : rawMode cfg ci.isForward = false)
    {psrc : Bytes} {r : Nat × Outgoing × UserConnection × Shared}
    (h : processOneRabinChunking2 cfg sha1 hint ci psrc sh = .ok r) : Round cfg sha1 hint ci psrc sh r.1 r.2.1 r.2.2.1 r.2.2.2 := by
  unfold processOneRabinChunking2 at h
  obtain ⟨pre, hpre, h⟩ := bind_eq_ok.mp h
  obtain ⟨_, -, h⟩ := bind_eq_ok.mp h
  obtain ⟨_, -, h⟩ := bind_eq_ok.mp h
  simp only at h
  split at h
  case isTrue hfirst =>
    obtain ⟨msg, hmsg, hret⟩ := bind_eq_ok.mp h
    cases hret
    exact .first hraw hpre hfirst.1 hfirst.2 hmsg
  case isFalse hfirst =>
    obtain ⟨resolved, hresolved, h⟩ := bind_eq_ok.mp h
    obtain ⟨_, -, h⟩ := bind_eq_ok.mp h
    obtain ⟨sizes, hsizes, h⟩ := bind_eq_ok.mp h
    obtain ⟨created, hcreated, h⟩ := bind_eq_ok.mp h
    obtain ⟨msg, hmsg, hret⟩ := bind_eq_ok.mp h
    cases hret
    obtain ⟨names, names₁, low, cands, names₂, htree, hresolve, hblock⟩ := selectBlock hcfg hctx hpre sha1 hint
    have heq : resolveBlock cfg sha1 hint sh.table psrc pre = .ok (names₁, low, cands, names₂) := by
      rw [resolveBlock, htree, ok_bind, hresolve, ok_bind, hblock.list]
      rfl
    rw [heq] at hresolved
    cases hresolved
    rw [getCandidateMessageLength_eq hblock.selected.tiles] at hsizes
    cases hsizes
    obtain ⟨hbuffer, hput⟩ := createNewChunkBuffer2_ok hcreated
    exact .names hraw hpre hfirst hblock hput hbuffer hmsg

theorem processOneBlock_round (hcfg : cfg.Sized) (hctx : ci.ChunkReady) {forceProcess : Bool} {buffer : Bytes}
    {r : Nat × Outgoing × UserConnection × Shared} (h : processOneBlock cfg sha1 hint forceProcess ci buffer sh = .ok (some r)) :
    Round cfg sha1 hint ci buffer sh r.1 r.2.1 r.2.2.1 r.2.2.2 := by
  unfold processOneBlock at h
  split at h
  case isTrue hraw =>
    obtain ⟨msg, hmsg, hret⟩ := bind_eq_ok.mp h
    cases hret
    exact .raw hraw hmsg
  case isFalse hraw =>
    split at h
    · cases h
    · obtain ⟨one, hone, hret⟩ := bind_eq_ok.mp h
      cases hret
      exact processOneRabinChunking2_round hcfg hctx (Bool.eq_false_iff.mpr hraw) hone

theorem buildWARawMessage_pos {id : ConnectionID} {message msg : Bytes} (h : buildWARawMessage id message = .ok msg) :
    0 < message.length := by
  obtain ⟨_, hpos, -⟩ := bind_eq_ok.mp h
  exact check_eq_ok.mp hpos

/-- A round takes what its message stands for from the front of the buffer, and only the chunking and the buffers of
the connection change. -/
theorem Round.frame {buffer : Bytes} {one : Nat} {o : Outgoing} (hcfg : cfg.Sized) (hctx : ci.ChunkReady)
    (h : Round cfg sha1 hint ci buffer sh one o ci' sh') :
    0 < one ∧ one ≤ buffer.length ∧ o.block = buffer.take one ∧ ci'.ChunkReady ∧
      ci' = { ci with rctx := ci'.rctx, numChunks := ci'.numChunks, chunkBufferList := ci'.chunkBufferList } := by
  cases h with
  | raw hraw hmsg => exact ⟨buildWARawMessage_pos hmsg, le_refl _, List.take_length.symm, hctx, rfl⟩
  | first hraw hpre hskip hnum hmsg =>
      obtain ⟨hready, -, hpos, hle⟩ := doPreMRC_spec hcfg hctx hpre
      exact ⟨hpos, hle, rfl, hready, rfl⟩
  | names hraw hpre hfirst hblock hput hbuffer hmsg =>
      obtain ⟨hready, -, hpos, hle⟩ := doPreMRC_spec hcfg hctx hpre
      exact ⟨hpos, hle, rfl, hready, rfl⟩

theorem Round.countSent_ready {buffer : Bytes} {one : Nat} {o : Outgoing} (hcfg : cfg.Sized) (hctx : ci.ChunkReady)
    (h : Round cfg sha1 hint ci buffer sh one o ci' sh') : (countSent ci' one).ChunkReady := (h.frame hcfg hctx).2.2.2.1

theorem userLoop_rounds (hcfg : cfg.Sized) {forceProcess : Bool} {fuel srcOff : Nat} {r : UserDataResult} (hctx : ci.ChunkReady)
    (h : userLoop cfg sha1 hint forceProcess fuel srcOff ci sh = .ok r) : Rounds cfg sha1 hint srcOff ci sh r := by
  induction fuel generalizing srcOff ci sh r with
  | zero => cases h
  | succ fuel ih =>
      rw [userLoop] at h
      split at h
      case isFalse hend =>
        cases h
        exact .stop srcOff ci sh
      case isTrue hlt =>
        obtain ⟨one, hone, h⟩ := bind_eq_ok.mp h
        cases one with
        | none =>
            cases h
            exact .stop srcOff ci sh
        | some one =>
            have hround := processOneBlock_round hcfg hctx hone
            simp only at h
            split at h
            case isTrue hfull =>
              cases h
              exact .block hlt hround hfull
            case isFalse hfull =>
              obtain ⟨rest, hrest, hret⟩ := bind_eq_ok.mp h
              cases hret
              exact .next hlt hround (Bool.eq_false_iff.mpr hfull) (ih (hround.countSent_ready hcfg hctx) hrest)

/-- Rounds leave the buffer alone and keep the chunking ready; they take a first part of what is left of the buffer,
which is what the messages stand for. -/
theorem Rounds.frame {srcOff : Nat} {r : UserDataResult} (hcfg : cfg.Sized) (hctx : ci.ChunkReady)
    (h : Rounds cfg sha1 hint srcOff ci sh r) (hoff : srcOff ≤ ci.bufRead.length) :
    r.ci.ChunkReady ∧ r.ci.bufRead = ci.bufRead ∧ r.ci.key = ci.key ∧ r.ci.isForward = ci.isForward ∧
      r.ci.isHttpProxy = ci.isHttpProxy ∧ srcOff ≤ r.numProcessed ∧ r.numProcessed ≤ ci.bufRead.length ∧
      (r.out.map Outgoing.block).flatten = (ci.bufRead.drop srcOff).take (r.numProcessed - srcOff) := by
  induction h with
  | stop srcOff ci sh => exact ⟨hctx, rfl, rfl, rfl, rfl, le_refl _, hoff, by simp⟩
  | @block srcOff one ci ci₁ sh sh₁ o hlt hround hfull =>
      obtain ⟨hpos, hle, hblock, hready, hframe⟩ := hround.frame hcfg hctx
      rw [List.length_drop] at hle
      have hend : srcOff + one ≤ ci.bufRead.length := by omega
      refine ⟨hready, ?_, ?_, ?_, ?_, Nat.le_add_right _ _, hend, ?_⟩
      · rw [hframe]; rfl
      · rw [hframe]; rfl
      · rw [hframe]; rfl
      · rw [hframe]; rfl
      · simp [hblock]
  | @next srcOff one ci ci₁ sh sh₁ o rest hlt hround hfull hrest ih =>
      obtain ⟨hpos, hle, hblock, hready, hframe⟩ := hround.frame hcfg hctx
      have hbuf : (countSent ci₁ one).bufRead = ci.bufRead := by rw [hframe]; rfl
      rw [List.length_drop] at hle
      obtain ⟨hready', hbuf', hkey, hforward, hproxy, hoff', hend, hblocks⟩ := ih hready (by rw [hbuf]; omega)
      rw [hbuf] at hbuf' hend hblocks
      refine ⟨hready', hbuf', ?_, ?_, ?_, by simp only; omega, hend, ?_⟩
      · rw [hkey, hframe]; rfl
      · rw [hforward, hframe]; rfl
      · rw [hproxy, hframe]; rfl
      · have hsplit : rest.numProcessed - srcOff = one + (rest.numProcessed - (srcOff + one)) := by omega
        simp only [List.map_cons, List.flatten_cons]
        rw [hblocks, hblock, hsplit, List.take_add, List.drop_drop]

end Cases

/-! ## Calls -/

section Calls

variable (cfg : Config) (sha1 : Bytes → Sha1Name) (hint : Sha1Name → Bool) (host : Bytes → Option (BitVec 32 × BitVec 16))

/-- A call of `ProcessUserData` with the `AdjustReadBuffer` behind it. -/
def serveUser (forceProcess : Bool) (ci : UserConnection) (sh : Shared) : Run UserDataResult := do
  let r ← processUserData cfg sha1 hint host forceProcess ci sh
  let ci ← adjustReadBuffer r.ci r.numProcessed
  return { r with ci := ci }

/-- The connection as the loop gets it: for an HTTP request the line with the target is taken out, and the connection
gets its destination from it. -/
def opened (ci : UserConnection) : Option UserConnection :=
  if ci.isHttpProxy then
    match host ci.bufRead, ci.bufRead.findIdx? (· = 0x0a) with
    | some target, some line => some { ci with
        bufRead := ci.bufRead.drop (line + 1)
        key := { ci.key with dstIP := target.1, dstPort := target.2 }
        isHttpProxy := false }
    | _, _ => none
  else some ci

/-- What a call did: nothing, or the rounds of a loop. -/
inductive Served (ci : UserConnection) (sh : Shared) (r : UserDataResult) : Prop
  | idle : r.out = [] → r.blocked = false → r.close = none → r.ci = ci → r.sh = sh → Served ci sh r
  | sent {ci₀ : UserConnection} {r₀ : UserDataResult} : opened host ci = some ci₀ →
      ¬ (ci₀.key.dstIP = 0 ∧ ci₀.key.dstPort = 0) → (r₀.out ≠ [] → ci₀.status ≠ .block) →
      Rounds cfg sha1 hint 0 ci₀ sh r₀ →
      r.out = r₀.out → r.blocked = r₀.blocked → r.close = (finish r₀).close → r.sh = r₀.sh →
      r.ci = { (finish r₀).ci with bufRead := r₀.ci.bufRead.drop r₀.numProcessed } → Served ci sh r

end Calls

section CallCases

variable {cfg : Config} {sha1 : Bytes → Sha1Name} {hint : Sha1Name → Bool} {host : Bytes → Option (BitVec 32 × BitVec 16)}
  {ci ci' : UserConnection} {sh : Shared} {r : UserDataResult}

theorem adjustReadBuffer_ok {n : Nat} (h : adjustReadBuffer ci n = .ok ci') :
    n ≤ ci.bufRead.length ∧ ci' = { ci with bufRead := ci.bufRead.drop n } := by
  obtain ⟨_, hle, hret⟩ := bind_eq_ok.mp h
  cases hret
  exact ⟨check_eq_ok.mp hle, rfl⟩

theorem adjustReadBuffer_all (ci : UserConnection) :
    adjustReadBuffer ci ci.bufRead.length = .ok { ci with bufRead := [] } := by
  rw [adjustReadBuffer, check_of (le_refl _), ok_bind, List.drop_length]
  rfl

theorem finish_frame (r : UserDataResult) : (finish r).numProcessed = r.numProcessed ∧ (finish r).out = r.out ∧
    (finish r).blocked = r.blocked ∧ (finish r).sh = r.sh ∧
    (finish r).ci = { r.ci with status := (finish r).ci.status } := by
  unfold finish
  split <;> exact ⟨rfl, rfl, rfl, rfl, rfl⟩

theorem opened_frame {ci₀ : UserConnection} (h : opened host ci = some ci₀) :
    ∃ line, ci₀ = { ci with bufRead := ci.bufRead.drop line, key := ci₀.key, isHttpProxy := ci₀.isHttpProxy } := by
  unfold opened at h
  split at h
  · split at h
    · cases h
      exact ⟨_, rfl⟩
    · cases h
  · cases h
    exact ⟨0, rfl⟩

theorem opened_ready {ci₀ : UserConnection} (h : opened host ci = some ci₀) (hctx : ci.ChunkReady) : ci₀.ChunkReady := by
  obtain ⟨line, heq⟩ := opened_frame h
  rw [heq]
  exact hctx

theorem processPlainData_served (hcfg : cfg.Sized) (hctx : ci.ChunkReady) {forceProcess : Bool}
    (h : processPlainData cfg sha1 hint forceProcess ci sh = .ok r) :
    (r = ⟨0, [], false, none, ci, sh⟩) ∨ (¬ (ci.key.dstIP = 0 ∧ ci.key.dstPort = 0) ∧ ci.status ≠ .block ∧
      ∃ r₀, Rounds cfg sha1 hint 0 ci sh r₀ ∧ r = finish r₀) := by
  unfold processPlainData at h
  split at h
  · cases h
    exact .inl rfl
  case isFalse hdst =>
    split at h
    · cases h
      exact .inl rfl
    case isFalse hblock =>
      obtain ⟨r₀, hloop, hret⟩ := bind_eq_ok.mp h
      cases hret
      exact .inr ⟨hdst, hblock, r₀, userLoop_rounds hcfg hctx hloop, rfl⟩

theorem serveUser_served (hcfg : cfg.Sized) (hctx : ci.ChunkReady) {forceProcess : Bool}
    (h : serveUser cfg sha1 hint host forceProcess ci sh = .ok r) : Served cfg sha1 hint host ci sh r := by
  obtain ⟨r₁, hprocess, h⟩ := bind_eq_ok.mp h
  obtain ⟨ci₁, hadjust, hret⟩ := bind_eq_ok.mp h
  cases hret
  obtain ⟨hle, rfl⟩ := adjustReadBuffer_ok hadjust
  unfold processUserData at hprocess
  split at hprocess
  case isFalse hproxy =>
    have hopened : opened host ci = some ci := by rw [opened, if_neg hproxy]
    rcases processPlainData_served hcfg hctx hprocess with rfl | ⟨hdst, hblock, r₀, hrounds, rfl⟩
    · exact .idle rfl rfl rfl rfl rfl
    · obtain ⟨h1, h2, h3, h4, h5⟩ := finish_frame r₀
      refine .sent hopened hdst (fun _ => hblock) hrounds h2 h3 rfl h4 ?_
      rw [h1, h5]
  case isTrue hproxy =>
    cases hhost : host ci.bufRead with
    | none =>
        rw [hhost] at hprocess
        cases hprocess
        exact .idle rfl rfl rfl rfl rfl
    | some target =>
        rw [hhost] at hprocess
        obtain ⟨_, -, hprocess⟩ := bind_eq_ok.mp hprocess
        obtain ⟨_, -, hprocess⟩ := bind_eq_ok.mp hprocess
        cases hline : ci.bufRead.findIdx? (· = 0x0a) with
        | none =>
            rw [hline] at hprocess
            cases hprocess
        | some line =>
            rw [hline] at hprocess
            obtain ⟨ci₀, hstrip, hprocess⟩ := bind_eq_ok.mp hprocess
            obtain ⟨_, hip, hprocess⟩ := bind_eq_ok.mp hprocess
            obtain ⟨_, hport, hprocess⟩ := bind_eq_ok.mp hprocess
            obtain ⟨r₁, hplain, hprocess⟩ := bind_eq_ok.mp hprocess
            obtain ⟨ci₁, hadjust₁, hret⟩ := bind_eq_ok.mp hprocess
            cases hret
            obtain ⟨-, rfl⟩ := adjustReadBuffer_ok hstrip
            obtain ⟨-, rfl⟩ := adjustReadBuffer_ok hadjust₁
            have hopened : opened host ci = some { ci with
                bufRead := ci.bufRead.drop (line + 1)
                key := { ci.key with dstIP := target.1, dstPort := target.2 }
                isHttpProxy := false } := by
              rw [opened, if_pos hproxy, hhost, hline]
            unfold processPlainData at hplain
            have hdst := check_eq_ok.mp hip
            rw [if_neg fun h => hdst h.1] at hplain
            split at hplain
            case isTrue hblock =>
              cases hplain
              refine .sent hopened (fun h => hdst h.1) (fun hne => absurd rfl hne) (.stop 0 _ sh) rfl rfl ?_ rfl ?_
              · rw [finish, if_neg (by rw [hblock]; decide)]
              · rw [finish, if_neg (by rw [hblock]; decide), List.drop_zero]
                rfl
            case isFalse hblock =>
              obtain ⟨r₀, hloop, hret⟩ := bind_eq_ok.mp hplain
              cases hret
              obtain ⟨h1, h2, h3, h4, h5⟩ := finish_frame r₀
              refine .sent hopened (fun h => hdst h.1) (fun _ => hblock) (userLoop_rounds hcfg hctx hloop) h2 h3 rfl h4 ?_
              rw [h1, h5]
              rfl

theorem serveUser_all {forceProcess : Bool} (h : processUserData cfg sha1 hint host forceProcess ci sh = .ok r)
    (hall : r.numProcessed = r.ci.bufRead.length) :
    serveUser cfg sha1 hint host forceProcess ci sh = .ok { r with ci := { r.ci with bufRead := [] } } := by
  rw [serveUser, h, ok_bind, hall, adjustReadBuffer_all]
  rfl

theorem serveUser_raw {msg : Bytes} (hproxy : ci.isHttpProxy = false) (hdst : ¬ (ci.key.dstIP = 0 ∧ ci.key.dstPort = 0))
    (hactive : ci.status = .active) (hraw : rawMode cfg ci.isForward = true)
    (hmsg : buildWARawMessage ci.key ci.bufRead = .ok msg) (forceProcess : Bool) :
    serveUser cfg sha1 hint host forceProcess ci sh = .ok ⟨ci.bufRead.length, [⟨msg, ci.bufRead, []⟩],
      windowFull (countSent ci ci.bufRead.length), none, { countSent ci ci.bufRead.length with
        bufRead := []
        status := if windowFull (countSent ci ci.bufRead.length) then .block else .active }, sh⟩ := by
  have hpos := buildWARawMessage_pos hmsg
  obtain ⟨n, hn⟩ := Nat.exists_eq_add_one.mpr hpos
  have hone : processOneBlock cfg sha1 hint forceProcess ci ci.bufRead sh =
      .ok (some (ci.bufRead.length, ⟨msg, ci.bufRead, []⟩, ci, sh)) := by
    rw [processOneBlock, if_pos hraw, hmsg]
    rfl
  have hblock : ¬ ci.status = .block := by
    rw [hactive]
    decide
  have hloop : userLoop cfg sha1 hint forceProcess (ci.bufRead.length + 1) 0 ci sh = .ok ⟨ci.bufRead.length,
      [⟨msg, ci.bufRead, []⟩], windowFull (countSent ci ci.bufRead.length), none, { countSent ci ci.bufRead.length with
        status := if windowFull (countSent ci ci.bufRead.length) then .block else .active }, sh⟩ := by
    rw [userLoop, if_pos hpos, List.drop_zero, hone]
    simp only [ok_bind, Nat.zero_add]
    split
    case isTrue hfull =>
      rw [hfull]
      rfl
    case isFalse hfull =>
      have hstatus : (countSent ci ci.bufRead.length).status = .active := hactive
      have hend : ¬ ci.bufRead.length < (countSent ci ci.bufRead.length).bufRead.length := lt_irrefl _
      rw [Bool.eq_false_iff.mpr hfull, hn, userLoop, ← hn, if_neg hend]
      simp only [ok_bind, pure_eq_ok]
      rw [← hstatus]
  have hfinish : ∀ (status : ConnectionStatus) (b : Bool), status = (if b then ConnectionStatus.block else .active) →
      ¬ status = .done := by
    rintro status b rfl
    cases b <;> decide
  have hprocess : processUserData cfg sha1 hint host forceProcess ci sh = .ok ⟨ci.bufRead.length,
      [⟨msg, ci.bufRead, []⟩], windowFull (countSent ci ci.bufRead.length), none, { countSent ci ci.bufRead.length with
        status := if windowFull (countSent ci ci.bufRead.length) then .block else .active }, sh⟩ := by
    rw [processUserData, if_neg (by rw [hproxy]; decide), processPlainData, if_neg hdst, if_neg hblock, hloop]
    simp only [ok_bind, pure_eq_ok, finish]
    rw [if_neg (hfinish _ _ rfl)]
  exact serveUser_all hprocess rfl

theorem Served.ready (hcfg : cfg.Sized) (h : Served cfg sha1 hint host ci sh r) (hctx : ci.ChunkReady) : r.ci.ChunkReady := by
  cases h with
  | idle _ _ _ hci =>
      rw [hci]
      exact hctx
  | @sent ci₀ r₀ hopened _ _ hrounds _ _ _ _ hci =>
      obtain ⟨hready, -⟩ := hrounds.frame hcfg (opened_ready hopened hctx) (Nat.zero_le _)
      rw [hci, (finish_frame r₀).2.2.2.2]
      exact hready

end CallCases

end BeagleCache

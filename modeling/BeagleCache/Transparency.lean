import BeagleCache.Path

/-! What the destination of a path hands to its user. An entry of the reassemble list stands for a block of the source, and
the chunks that it takes out of the table are those of the block, since they hash to the same names. Entries leave the list in
the order of the messages, and a raw message does not overtake one. -/

namespace BeagleCache

open Transition Run

/-- The chunks that the names of entries stand for, one list for each entry. -/
def Pending (sha1 : Bytes → Sha1Name) (S : Set Bytes) (entries : List ReassembleInfo) (pending : List (List Bytes)) : Prop :=
  List.Forall₂ (List.Forall₂ (StandsFor sha1)) (entries.map ReassembleInfo.nameList) pending ∧
    ∀ chunks ∈ pending, ∀ chunk ∈ chunks, chunk ∈ S

/-- The table holds blocks of `S` under their names. -/
def HoldsFrom (sha1 : Bytes → Sha1Name) (S : Set Bytes) (tmp : TempCache) : Prop :=
  HoldsOnly (fun n block => sha1 block = n ∧ block ∈ S) tmp

section Content

variable {cfg : Config} {sha1 : Bytes → Sha1Name} {S T : Set Bytes} {tmp : TempCache}

theorem HoldsOnly.mono {P Q : Sha1Name → Bytes → Prop} (h : HoldsOnly P tmp) (hPQ : ∀ n block, P n block → Q n block) : HoldsOnly Q tmp :=
  fun n value hvalue => hPQ n value.pBlock (h n value hvalue)

theorem HoldsFrom.mono (h : HoldsFrom sha1 S tmp) (hST : S ⊆ T) : HoldsFrom sha1 T tmp :=
  HoldsOnly.mono h fun _ _ hblock => ⟨hblock.1, hST hblock.2⟩

theorem HoldsFrom.genuine (h : HoldsFrom sha1 S tmp) : Genuine sha1 tmp := HoldsOnly.mono h fun _ _ hblock => hblock.1

theorem Genuine.holdsFrom (h : Genuine sha1 tmp) (S : Set Bytes) : HoldsFrom sha1 (S ∪ blocksOf tmp) tmp :=
  fun n value hvalue => ⟨h n value hvalue, .inr ⟨n, value, hvalue, rfl⟩⟩

theorem Pending.mono {entries : List ReassembleInfo} {pending : List (List Bytes)} (h : Pending sha1 S entries pending) (hST : S ⊆ T) :
    Pending sha1 T entries pending := ⟨h.1, fun chunks hchunks chunk hchunk => hST (h.2 chunks hchunks chunk hchunk)⟩

theorem copyChunks_content {names : List ChunkNameInfo} {chunks : List Bytes} {r : Bytes × TempCache} (hinj : Set.InjOn sha1 S)
    (htmp : HoldsFrom sha1 S tmp) (hstands : List.Forall₂ (StandsFor sha1) names chunks) (hchunks : ∀ chunk ∈ chunks, chunk ∈ S)
    (h : copyChunks cfg sha1 names tmp = .ok r) : r.1 = chunks.flatten := by
  induction hstands generalizing tmp r with
  | nil =>
      cases h
      rfl
  | @cons walk chunk rest chunks hone _ ih =>
      rw [copyChunks] at h
      cases hsearch : searchCache tmp walk.sha1name with
      | none =>
          rw [hsearch] at h
          cases h
      | some value =>
          rw [hsearch] at h
          obtain ⟨_, -, h⟩ := bind_eq_ok.mp h
          obtain ⟨_, -, h⟩ := bind_eq_ok.mp h
          obtain ⟨tmp₁, hflush, h⟩ := bind_eq_ok.mp h
          obtain ⟨r₁, hrest, hret⟩ := bind_eq_ok.mp h
          cases hret
          obtain ⟨hname, hmem⟩ := htmp walk.sha1name value hsearch
          -- both hash to the name, so they are the same chunk
          have hblock : value.pBlock = chunk := hinj hmem (hchunks chunk List.mem_cons_self) (hname.trans hone.1)
          have htail := ih (refFlushChunk_holdsOnly htmp hflush) (fun c hc => hchunks c (List.mem_cons_of_mem chunk hc)) hrest
          rw [List.flatten_cons, hblock, htail]

/-- The entries that are reconstructed give the blocks they stand for, and the rest goes on standing for the rest. -/
theorem reconstructEntries_content {entries : List ReassembleInfo} {pending : List (List Bytes)}
    {r : Bytes × List ReassembleInfo × TempCache} (hinj : Set.InjOn sha1 S) (htmp : HoldsFrom sha1 S tmp)
    (hpending : Pending sha1 S entries pending) (h : reconstructEntries cfg sha1 entries tmp = .ok r) :
    ∃ done left, pending = done ++ left ∧ Pending sha1 S r.2.1 left ∧ r.1 = done.flatten.flatten := by
  induction entries generalizing tmp r pending with
  | nil =>
      cases h
      exact ⟨[], pending, rfl, hpending, rfl⟩
  | cons ri rest ih =>
      rw [reconstructEntries] at h
      obtain ⟨one, hone, h⟩ := bind_eq_ok.mp h
      rcases reconstructOneChunkTree_cases hone with ⟨hnone, -⟩ | ⟨-, -, block, hsome, hcopy⟩
      · rw [hnone] at h
        cases h
        exact ⟨[], pending, rfl, hpending, rfl⟩
      · rw [hsome] at h
        obtain ⟨next, hnext, hret⟩ := bind_eq_ok.mp h
        cases hret
        obtain ⟨hstands, hchunks⟩ := hpending
        cases hstands with
        | @cons _ chunks _ pending hfirst hothers =>
            have hblock := copyChunks_content hinj htmp hfirst (hchunks chunks List.mem_cons_self) hcopy
            have htail := ih (copyChunks_holdsOnly htmp hcopy) ⟨hothers, fun c hc => hchunks c (List.mem_cons_of_mem chunks hc)⟩ hnext
            obtain ⟨done, left, hsplit, hleft, hbytes⟩ := htail
            refine ⟨chunks :: done, left, by rw [hsplit, List.cons_append], hleft, ?_⟩
            show block ++ next.1 = _
            rw [hbytes, List.flatten_cons, List.flatten_append, ← hblock]

end Content

/-! ## Steps of the destination -/

section Own

variable {cfg : Config} {sha1 : Bytes → Sha1Name} {host : Bytes → Option (BitVec 32 × BitVec 16)} {q q' : Proxy}
  {dst dst' : UserConnection}

/-- What is done to the destination besides its messages: the receiving side stays as it is, or entries are reconstructed. -/
structure Kept (cfg : Config) (sha1 : Bytes → Sha1Name) (tmp : TempCache) (dst dst' : UserConnection) : Prop where
  key_eq : dst'.key = dst.key
  isHttpProxy_eq : dst'.isHttpProxy = dst.isHttpProxy
  receiving : (dst'.sent = dst.sent ∧ dst'.reassembleList.map ReassembleInfo.nameList = dst.reassembleList.map ReassembleInfo.nameList) ∨
    ∃ r, reconstructEntries cfg sha1 dst.reassembleList tmp = .ok r ∧ dst'.reassembleList = r.2.1 ∧ dst'.sent = dst.sent ++ r.1

theorem Served.kept {hint : Sha1Name → Bool} {sh : Shared} {r : UserDataResult} {tmp : TempCache} (hcfg : cfg.Sized) (hctx : dst.ChunkReady)
    (hplain : dst.isHttpProxy = false) (h : Served cfg sha1 hint host dst sh r) :
    Kept cfg sha1 tmp dst r.ci := by
  obtain ⟨hsends, htakes⟩ := h.takes hcfg hctx
  obtain ⟨hsent, hlist⟩ := (hsends 0).receiving
  rcases htakes with ⟨-, hci⟩ | ⟨line, htakes⟩
  · rw [hci]
    exact ⟨rfl, rfl, .inl ⟨rfl, rfl⟩⟩
  · exact ⟨htakes.key_eq hplain, htakes.isHttpProxy_eq.trans hplain.symm, .inl ⟨hsent, by rw [hlist]⟩⟩

theorem eq_of_single {i : Nat} {ci : UserConnection} (hci : [dst][i]? = some ci) : i = 0 ∧ ci = dst := by
  cases i with
  | zero =>
      cases hci
      exact ⟨rfl, rfl⟩
  | succ i => cases hci

theorem proxyNext_kept (hcfg : cfg.Sized) {e : ProxyEvent} (hctx : dst.ChunkReady) (hplain : dst.isHttpProxy = false)
    (hdelivery : e.isDelivery = false) (h : proxyNext cfg sha1 host { q with users := [dst] } e = .ok q') (hdst : q'.users = [dst']) :
    Kept cfg sha1 q.tmp dst dst' := by
  cases proxyStep_of_next h with
  | accept => cases hdst
  | same | put =>
      cases hdst
      exact ⟨rfl, rfl, .inl ⟨rfl, rfl⟩⟩
  | read i data hci =>
      obtain ⟨rfl, rfl⟩ := eq_of_single hci
      cases hdst
      exact ⟨rfl, rfl, .inl ⟨rfl, rfl⟩⟩
  | serve i forceProcess hci hserve =>
      obtain ⟨rfl, rfl⟩ := eq_of_single hci
      cases hdst
      exact (serveUser_served hcfg hctx hserve).kept hcfg hctx hplain
  | ack i ack hci hdestroy =>
      obtain ⟨rfl, rfl⟩ := eq_of_single hci
      cases hdst
      exact ⟨rfl, rfl, .inl ⟨rfl, rfl⟩⟩
  | close i updateHint hci hdestroy =>
      obtain ⟨rfl, rfl⟩ := eq_of_single hci
      cases hdst
  | deliver => cases hdelivery
  | schedule i hci hnames =>
      obtain ⟨rfl, rfl⟩ := eq_of_single hci
      cases hdst
      exact ⟨rfl, rfl, .inl ⟨rfl, hnames⟩⟩
  | @reconstruct i ci r hci hentries =>
      obtain ⟨rfl, rfl⟩ := eq_of_single hci
      cases hdst
      exact ⟨rfl, rfl, .inr ⟨r, hentries, rfl, rfl⟩⟩

end Own

/-! ## Runs -/

namespace Path

/-- The first `n` messages, where they are for the destination. -/
def firstReceived (p : Path) (n : Nat) : List Outgoing :=
  if getDestinationConnection [p.dst] p.src.key = some 0 then p.out.take n else []

/-- The messages that the destination got. -/
def received (p : Path) : List Outgoing := p.firstReceived p.delivered

/-- What holds at the source. -/
structure SourceSound (cfg : Config) (sha1 : Bytes → Sha1Name) (p : Path) : Prop where
  ready : p.src.ChunkReady
  small : p.src.bufRead.length ≤ recvBufsize
  announced : ∀ o ∈ p.out, AnnouncedFor cfg sha1 p.src.key o
  unopened : p.src.isHttpProxy = true → p.isHttp = true ∧ p.out = [] ∧ p.consumed = []
  opened : p.src.isHttpProxy = false → ∃ line, p.consumed = line ++ payload p.out ∧ OpeningLine p.isHttp line
  raws : rawMode cfg p.src.isForward = true → ∀ o ∈ p.out, o.chunks = []
  counted : rawMode cfg p.src.isForward = false → p.src.numChunks = BitVec.ofNat 32 p.out.length
  rawsFirst : RawsFirst p.out
  named : chunksOf p.out ⊆ p.occurred

/-- What holds at the destination: what was handed over and what the entries stand for is what was received. -/
structure TargetSound (sha1 : Bytes → Sha1Name) (p : Path) : Prop where
  delivered_le : p.delivered ≤ p.out.length
  ready : p.dst.ChunkReady
  ready_others : ∀ ci ∈ p.proxy.users, ci.ChunkReady
  plain : p.dst.isHttpProxy = false
  holds : HoldsFrom sha1 p.occurred p.proxy.tmp
  pending : ∃ pending, Pending sha1 p.occurred p.dst.reassembleList pending ∧ p.dst.sent ++ pending.flatten.flatten = payload p.received ∧
    (pending ≠ [] → ∃ o ∈ p.received, o.chunks ≠ [])

variable {cfg : Config} {sha1 : Bytes → Sha1Name} {host : Bytes → Option (BitVec 32 × BitVec 16)} {p p' : Path}

theorem received_prefix (p : Path) : payload p.received <+: payload p.out := by
  rw [received, firstReceived]
  split
  · refine ⟨payload (p.out.drop p.delivered), ?_⟩
    rw [← payload_append, List.take_append_drop]
  · exact List.nil_prefix

theorem getDestinationConnection_congr {ci ci' : UserConnection} (h : ci'.key = ci.key) (id : ConnectionID) :
    getDestinationConnection [ci'] id = getDestinationConnection [ci] id := by
  rw [getDestinationConnection, getDestinationConnection]
  simp only [List.findIdx?_cons, h]

theorem isFor_iff {o : Outgoing} {id : ConnectionID} {ci : UserConnection} (ho : AnnouncedFor cfg sha1 id o) :
    IsFor o.message ci ↔ getDestinationConnection [ci] id = some 0 := by
  constructor
  · rintro ⟨id', hid, hfound⟩
    cases hid.symm.trans ho.2
    exact hfound
  · exact fun hfound => ⟨id, ho.2, hfound⟩

theorem receive_cases {pickPeer : Sha1Name → Int} (h : pathNext cfg sha1 host p (.receive pickPeer) = .ok p') :
    p' = p ∨ ∃ o r, p.out[p.delivered]? = some o ∧ deliverMessage cfg sha1 pickPeer o.message [p.dst] p.proxy.tmp = .ok r ∧
      p' = { p.withProxy (r.1.headD p.dst) { p.proxy with tmp := r.2 } with delivered := p.delivered + 1 } := by
  cases ho : p.out[p.delivered]? with
  | none =>
      rw [pathNext, ho] at h
      cases h
      exact .inl rfl
  | some o =>
      rw [pathNext, ho] at h
      obtain ⟨r, hmessage, hret⟩ := bind_eq_ok.mp h
      cases hret
      exact .inr ⟨o, r, rfl, hmessage, rfl⟩

theorem own_cases {e : ProxyEvent} (h : pathNext cfg sha1 host p (.own e) = .ok p') :
    ∃ q dst, proxyNext cfg sha1 host { p.proxy with users := [p.dst] } e = .ok q ∧ q.users = [dst] ∧
      p' = p.withProxy dst { q with users := p.proxy.users } := by
  obtain ⟨q, hstep, h⟩ := bind_eq_ok.mp h
  split at h
  case h_1 dst hdst =>
    cases h
    exact ⟨q, dst, hstep, hdst, rfl⟩
  case h_2 => cases h

theorem pathNext_mono {e : PathEvent} (h : pathNext cfg sha1 host p e = .ok p') :
    p.occurred ⊆ p'.occurred ∧ p.out.length ≤ p'.out.length := by
  cases e with
  | read data =>
      cases h
      exact ⟨subset_rfl, le_refl _⟩
  | serve forceProcess hint sh =>
      obtain ⟨r, -, hret⟩ := bind_eq_ok.mp h
      cases hret
      refine ⟨Set.subset_union_left, ?_⟩
      show _ ≤ (p.out ++ r.out).length
      rw [List.length_append]
      exact Nat.le_add_right _ _
  | source ci =>
      cases h
      exact ⟨subset_rfl, le_refl _⟩
  | receive pickPeer =>
      rcases receive_cases h with rfl | ⟨o, r, -, -, rfl⟩
      · exact ⟨subset_rfl, le_refl _⟩
      · exact ⟨Set.subset_union_left, le_refl _⟩
  | own e =>
      obtain ⟨q, dst, -, -, rfl⟩ := own_cases h
      exact ⟨Set.subset_union_left, le_refl _⟩
  | other e =>
      obtain ⟨q, -, hret⟩ := bind_eq_ok.mp h
      cases hret
      exact ⟨Set.subset_union_left, le_refl _⟩

/-! ### The source -/

theorem SourceSound.rawsFirst_append {id : ConnectionID} {r : UserDataResult} (h : p.SourceSound cfg sha1)
    (hsends : SendsInOrder cfg sha1 id p.out.length p.src r) (hcount : cfg.skipFirstChunk = true → (p.out ++ r.out).length < 2 ^ 32) :
    RawsFirst (p.out ++ r.out) := by
  refine List.pairwise_append.mpr ?_
  rw [List.length_append] at hcount
  cases hmode : rawMode cfg p.src.isForward with
  | true =>
      have hraws := hsends.raws hmode
      exact ⟨h.rawsFirst, List.pairwise_of_forall_mem_list fun o ho _ _ _ => hraws o ho, fun o ho _ _ _ => h.raws hmode o ho⟩
  | false =>
      obtain ⟨-, hfirst, hpairs⟩ := hsends.counted hmode hcount (h.counted hmode)
      refine ⟨h.rawsFirst, hpairs, ?_⟩
      intro o ho o' ho' hraw
      have hnone : p.out = [] := List.eq_nil_of_length_eq_zero (hfirst o' ho' hraw)
      rw [hnone] at ho
      cases ho

theorem SourceSound.serve {hint : Sha1Name → Bool} {sh : Shared} {r : UserDataResult} (hcfg : cfg.Sized) (h : p.SourceSound cfg sha1)
    (hserved : Served cfg sha1 hint host p.src sh r) (hcount : cfg.skipFirstChunk = true → (p.out ++ r.out).length < 2 ^ 32) :
    SourceSound cfg sha1 { p with
      src := r.ci
      out := p.out ++ r.out
      consumed := p.consumed ++ p.src.bufRead.take (p.src.bufRead.length - r.ci.bufRead.length)
      occurred := p.occurred ∪ chunksOf r.out } := by
  obtain ⟨hsends, htakes⟩ := hserved.takes hcfg h.ready
  rcases htakes with ⟨hout, hci⟩ | ⟨line, htakes⟩
  · rw [hout, hci, List.append_nil, Nat.sub_self, List.take_zero, List.append_nil]
    exact ⟨h.ready, h.small, h.announced, h.unopened, h.opened, h.raws, h.counted, h.rawsFirst,
      h.named.trans Set.subset_union_left⟩
  · have hin := hsends p.out.length
    refine ⟨hserved.ready hcfg h.ready, ?_, ?_, ?_, ?_, ?_, ?_, h.rawsFirst_append hin hcount, ?_⟩
    · have hsmall := h.small
      rw [htakes.bufRead_eq, List.length_append, List.length_append] at hsmall
      show r.ci.bufRead.length ≤ _
      omega
    · intro o ho
      rcases List.mem_append.mp ho with hold | hnew
      · cases hproxy : p.src.isHttpProxy with
        | false =>
            show AnnouncedFor cfg sha1 r.ci.key o
            rw [htakes.key_eq hproxy]
            exact h.announced o hold
        | true =>
            rw [(h.unopened hproxy).2.1] at hold
            cases hold
      · exact hin.announced h.small o hnew
    · intro hproxy
      have hopen := htakes.isHttpProxy_eq.symm.trans hproxy
      cases hopen
    · intro _
      show ∃ line, p.consumed ++ p.src.bufRead.take _ = line ++ payload (p.out ++ r.out) ∧ _
      rw [htakes.taken, payload_append]
      have hline := htakes.line_is
      cases hproxy : p.src.isHttpProxy with
      | true =>
          -- the call opened the connection
          obtain ⟨hhttp, hnone, hempty⟩ := h.unopened hproxy
          rw [hproxy] at hline
          refine ⟨line, ?_, ?_⟩
          · rw [hempty, hnone]
            rfl
          · show OpeningLine p.isHttp line
            rw [hhttp]
            exact hline
      | false =>
          obtain ⟨front, hconsumed, hfront⟩ := h.opened hproxy
          rw [hproxy] at hline
          have hnil : line = [] := hline
          refine ⟨front, ?_, hfront⟩
          rw [hconsumed, hnil, List.nil_append, List.append_assoc]
    · intro hmode o ho
      have hmode' : rawMode cfg p.src.isForward = true := by rw [← htakes.isForward_eq]; exact hmode
      rcases List.mem_append.mp ho with hold | hnew
      · exact h.raws hmode' o hold
      · exact hin.raws hmode' o hnew
    · intro hmode
      have hmode' : rawMode cfg p.src.isForward = false := by rw [← htakes.isForward_eq]; exact hmode
      rw [List.length_append] at hcount
      show r.ci.numChunks = BitVec.ofNat 32 (p.out ++ r.out).length
      rw [List.length_append]
      exact (hin.counted hmode' hcount (h.counted hmode')).1
    · rintro chunk ⟨o, ho, hchunk⟩
      rcases List.mem_append.mp ho with hold | hnew
      · exact .inl (h.named ⟨o, hold, hchunk⟩)
      · exact .inr ⟨o, hnew, hchunk⟩

theorem SourceSound.withProxy (h : p.SourceSound cfg sha1) (dst : UserConnection) (proxy : Proxy) (delivered : Nat) :
    SourceSound cfg sha1 { p.withProxy dst proxy with delivered := delivered } :=
  ⟨h.ready, h.small, h.announced, h.unopened, h.opened, h.raws, h.counted, h.rawsFirst, h.named.trans Set.subset_union_left⟩

/-! ### The destination -/

/-- What is received stays the same where the source sends more. -/
theorem TargetSound.serve {r : UserDataResult} (hs : p.SourceSound cfg sha1) (h : p.TargetSound sha1)
    (hkey : p.src.isHttpProxy = false → r.ci.key = p.src.key) (consumed : Bytes) :
    TargetSound sha1 { p with src := r.ci, out := p.out ++ r.out, consumed := consumed, occurred := p.occurred ∪ chunksOf r.out } := by
  obtain ⟨pending, hpending, hbytes, hraws⟩ := h.pending
  have hgrow : p.occurred ⊆ p.occurred ∪ chunksOf r.out := Set.subset_union_left
  have htake : (p.out ++ r.out).take p.delivered = p.out.take p.delivered := List.take_append_of_le_length h.delivered_le
  have hreceived :
      received { p with src := r.ci, out := p.out ++ r.out, consumed := consumed, occurred := p.occurred ∪ chunksOf r.out } =
        p.received := by
    show (if getDestinationConnection [p.dst] r.ci.key = some 0 then (p.out ++ r.out).take p.delivered else []) = _
    rw [htake, received, firstReceived]
    cases hproxy : p.src.isHttpProxy with
    | false => rw [hkey hproxy]
    | true => simp [(hs.unopened hproxy).2.1]
  refine ⟨?_, h.ready, h.ready_others, h.plain, h.holds.mono hgrow, pending, hpending.mono hgrow, ?_, ?_⟩
  · show p.delivered ≤ (p.out ++ r.out).length
    rw [List.length_append]
    exact h.delivered_le.trans (Nat.le_add_right _ _)
  · rw [hreceived]
    exact hbytes
  · rw [hreceived]
    exact hraws

/-- The destination and its proxy after a step, where they are still sound. -/
theorem TargetSound.next {dst : UserConnection} {proxy : Proxy} {delivered : Nat} (pending : List (List Bytes))
    (hle : delivered ≤ p.out.length) (hready : dst.ChunkReady) (hothers : ∀ ci ∈ proxy.users, ci.ChunkReady)
    (hplain : dst.isHttpProxy = false) (hkey : dst.key = p.dst.key) (hgenuine : Genuine sha1 proxy.tmp)
    (hpending : Pending sha1 p.occurred dst.reassembleList pending)
    (hbytes : dst.sent ++ pending.flatten.flatten = payload (p.firstReceived delivered))
    (hraws : pending ≠ [] → ∃ o ∈ p.firstReceived delivered, o.chunks ≠ []) :
    TargetSound sha1 { p.withProxy dst proxy with delivered := delivered } := by
  have hreceived : received { p.withProxy dst proxy with delivered := delivered } = p.firstReceived delivered := by
    rw [firstReceived, ← getDestinationConnection_congr hkey]
    rfl
  refine ⟨hle, hready, hothers, hplain, hgenuine.holdsFrom p.occurred, pending, hpending.mono Set.subset_union_left, ?_, ?_⟩
  · rw [hreceived]
    exact hbytes
  · rw [hreceived]
    exact hraws

theorem TargetSound.receive {pickPeer : Sha1Name → Int} {o : Outgoing} {r : List UserConnection × TempCache} (hs : p.SourceSound cfg sha1)
    (h : p.TargetSound sha1) (ho : p.out[p.delivered]? = some o)
    (hmessage : deliverMessage cfg sha1 pickPeer o.message [p.dst] p.proxy.tmp = .ok r) :
    TargetSound sha1 { p.withProxy (r.1.headD p.dst) { p.proxy with tmp := r.2 } with delivered := p.delivered + 1 } := by
  obtain ⟨pending, hpending, hbytes, hraws⟩ := h.pending
  have hann := hs.announced o (List.mem_of_getElem? ho)
  have hdelivered := hann.1.delivered hmessage
  have hle : p.delivered + 1 ≤ p.out.length := (List.getElem?_eq_some_iff.mp ho).1
  have htake : p.out.take (p.delivered + 1) = p.out.take p.delivered ++ [o] := by
    rw [List.take_add_one, ho]
    rfl
  obtain ⟨users, tmp⟩ := r
  have hready := h.ready
  cases hdelivered with
  | elsewhere hnot =>
      have hmiss := (isFor_iff hann).not.mp hnot
      have hnone : ∀ n, p.firstReceived n = [] := fun n => by rw [firstReceived, if_neg hmiss]
      rw [received, hnone] at hbytes hraws
      refine TargetSound.next pending hle hready h.ready_others h.plain rfl h.holds.genuine hpending ?_ ?_
      · rw [hnone]
        exact hbytes
      · rw [hnone]
        exact hraws
  | raw hfor hraw =>
      have hhit := (isFor_iff hann).mp hfor
      rw [received, firstReceived, if_pos hhit] at hbytes hraws
      -- an entry would have come from a message with names, before a raw one
      have hnothing : pending = [] := by
        by_contra hne
        obtain ⟨o', ho', hnames⟩ := hraws hne
        have hpairs := hs.rawsFirst
        rw [RawsFirst, ← List.take_append_drop (p.delivered + 1) p.out, htake, List.append_assoc] at hpairs
        exact hnames ((List.pairwise_append.mp hpairs).2.2 o' ho' o List.mem_cons_self hraw)
      subst hnothing
      refine TargetSound.next [] hle hready h.ready_others h.plain rfl h.holds.genuine hpending ?_ fun hne => absurd rfl hne
      rw [firstReceived, if_pos hhit, htake, payload_append, payload_singleton, ← hbytes]
      show p.dst.sent ++ o.block ++ [] = p.dst.sent ++ [] ++ o.block
      rw [List.append_nil, List.append_nil]
  | @names ri tmp' hfor hflatten hstands hholds =>
      have hhit := (isFor_iff hann).mp hfor
      rw [received, firstReceived, if_pos hhit] at hbytes
      have hgenuine : Genuine sha1 tmp := hholds _ h.holds.genuine fun _ _ => rfl
      refine TargetSound.next (pending ++ [o.chunks]) hle hready h.ready_others h.plain rfl hgenuine ⟨?_, ?_⟩ ?_ ?_
      · show List.Forall₂ _ ((p.dst.reassembleList ++ [ri]).map ReassembleInfo.nameList) _
        rw [List.map_append]
        exact List.rel_append hpending.1 (.cons hstands .nil)
      · intro chunks hchunks chunk hchunk
        rcases List.mem_append.mp hchunks with hold | hnew
        · exact hpending.2 chunks hold chunk hchunk
        · rw [List.mem_singleton.mp hnew] at hchunk
          exact hs.named ⟨o, List.mem_of_getElem? ho, hchunk⟩
      · rw [firstReceived, if_pos hhit, htake, payload_append, payload_singleton, ← hbytes, List.flatten_append,
          List.flatten_singleton, List.flatten_append, hflatten, List.append_assoc]
        rfl
      · intro _
        refine ⟨o, ?_, ?_⟩
        · rw [firstReceived, if_pos hhit, htake]
          exact List.mem_append_right _ List.mem_cons_self
        · intro hnil
          have hpos := hann.1.block_length.1
          rw [← hflatten, hnil] at hpos
          exact absurd hpos (by decide)

theorem TargetSound.own {e : ProxyEvent} {q : Proxy} {dst : UserConnection} (hcfg : cfg.Sized) (hinj : Set.InjOn sha1 p.occurred)
    (h : p.TargetSound sha1) (hevent : e.Genuine sha1) (hdelivery : e.isDelivery = false)
    (hstep : proxyNext cfg sha1 host { p.proxy with users := [p.dst] } e = .ok q) (hdst : q.users = [dst]) :
    TargetSound sha1 (p.withProxy dst { q with users := p.proxy.users }) := by
  obtain ⟨pending, hpending, hbytes, hraws⟩ := h.pending
  have hsingle : ∀ ci ∈ [p.dst], ci.ChunkReady := by
    intro ci hci
    rw [List.mem_singleton.mp hci]
    exact h.ready
  have hready := proxyNext_ready hcfg (p := { p.proxy with users := [p.dst] }) hsingle hstep
  have hgenuine := proxyNext_genuine hcfg (p := { p.proxy with users := [p.dst] }) hsingle h.holds.genuine hevent hstep
  have hkept := proxyNext_kept hcfg h.ready h.plain hdelivery hstep hdst
  have hdst' : dst.ChunkReady := by
    apply hready
    rw [hdst]
    exact List.mem_cons_self
  rcases hkept.receiving with ⟨hsent, hnames⟩ | ⟨r, hentries, hlist, hsent⟩
  · refine TargetSound.next pending h.delivered_le hdst' h.ready_others (hkept.isHttpProxy_eq.trans h.plain) hkept.key_eq hgenuine
      ⟨?_, hpending.2⟩ ?_ hraws
    · rw [hnames]
      exact hpending.1
    · rw [hsent]
      exact hbytes
  · obtain ⟨done, left, hsplit, hleft, hdone⟩ := reconstructEntries_content hinj h.holds hpending hentries
    refine TargetSound.next left h.delivered_le hdst' h.ready_others (hkept.isHttpProxy_eq.trans h.plain) hkept.key_eq hgenuine
      ?_ ?_ ?_
    · rw [hlist]
      exact hleft
    · rw [hsent, hdone, List.append_assoc, ← List.flatten_append, ← List.flatten_append, ← hsplit]
      exact hbytes
    · intro hne
      apply hraws
      rw [hsplit]
      exact List.append_ne_nil_of_right_ne_nil done hne

theorem TargetSound.other {e : ProxyEvent} {q : Proxy} (hcfg : cfg.Sized) (h : p.TargetSound sha1) (hevent : e.Genuine sha1)
    (hstep : proxyNext cfg sha1 host p.proxy e = .ok q) : TargetSound sha1 (p.withProxy p.dst q) := by
  obtain ⟨pending, hpending, hbytes, hraws⟩ := h.pending
  have hgenuine := proxyNext_genuine hcfg h.ready_others h.holds.genuine hevent hstep
  exact TargetSound.next pending h.delivered_le h.ready (proxyNext_ready hcfg h.ready_others hstep) h.plain rfl hgenuine hpending
    hbytes hraws

/-! ### Steps -/

/-- Where the first message is treated in its own way, the count of the messages has not wrapped. -/
def Counts (cfg : Config) (p : Path) : Prop := cfg.skipFirstChunk = true → p.out.length < 2 ^ 32

theorem SourceSound.start (h : StartsPath cfg p) : p.SourceSound cfg sha1 := by
  obtain ⟨forward, forward', src, dst, srcKey, dstKey, isHttpProxy, hints, table, hsrc, -, rfl⟩ := h
  obtain ⟨hready, hframe⟩ := createUserConnectionInfo_ok hsrc
  refine ⟨hready, ?_, (fun o ho => nomatch ho), fun hproxy => ⟨hproxy, rfl, rfl⟩, ?_, (fun _ o ho => nomatch ho), ?_, List.Pairwise.nil, ?_⟩
  · show src.bufRead.length ≤ _
    rw [hframe]
    exact Nat.zero_le _
  · intro hplain
    refine ⟨[], rfl, ?_⟩
    have hfalse : isHttpProxy = false := hplain
    rw [hfalse]
    rfl
  · intro _
    show src.numChunks = _
    rw [hframe]
    rfl
  · rintro chunk ⟨o, ho, -⟩
    cases ho

theorem TargetSound.start (h : StartsPath cfg p) : p.TargetSound sha1 := by
  obtain ⟨forward, forward', src, dst, srcKey, dstKey, isHttpProxy, hints, table, -, hdst, rfl⟩ := h
  obtain ⟨hready, hframe⟩ := createUserConnectionInfo_ok hdst
  refine ⟨le_refl _, hready, (fun ci hci => nomatch hci), ?_, holdsOnly_empty _, [], ⟨?_, fun chunks hchunks => nomatch hchunks⟩, ?_,
    fun hne => absurd rfl hne⟩
  · show dst.isHttpProxy = false
    rw [hframe]
  · show List.Forall₂ _ (dst.reassembleList.map _) []
    rw [hframe]
    exact .nil
  · show dst.sent ++ [] = payload (received _)
    rw [hframe, received, firstReceived]
    split <;> rfl

theorem SourceSound.step (hcfg : cfg.Sized) {e : PathEvent} (h : p.SourceSound cfg sha1) (hcounts : p'.Counts cfg)
    (hstep : pathNext cfg sha1 host p e = .ok p') : p'.SourceSound cfg sha1 := by
  have hready := h.ready
  cases e with
  | read data =>
      cases hstep
      refine ⟨hready, ?_, h.announced, h.unopened, h.opened, h.raws, h.counted, h.rawsFirst, h.named⟩
      have hsmall := h.small
      show (p.src.bufRead ++ data.take _).length ≤ _
      rw [List.length_append, List.length_take]
      omega
  | serve forceProcess hint sh =>
      obtain ⟨r, hserve, hret⟩ := bind_eq_ok.mp hstep
      cases hret
      exact h.serve hcfg (serveUser_served hcfg hready hserve) hcounts
  | source ci =>
      cases hstep
      exact ⟨hready, h.small, h.announced, h.unopened, h.opened, h.raws, h.counted, h.rawsFirst, h.named⟩
  | receive pickPeer =>
      rcases receive_cases hstep with rfl | ⟨o, r, -, -, rfl⟩
      · exact h
      · exact h.withProxy _ _ _
  | own e =>
      obtain ⟨q, dst, -, -, rfl⟩ := own_cases hstep
      exact h.withProxy dst _ p.delivered
  | other e =>
      obtain ⟨q, -, hret⟩ := bind_eq_ok.mp hstep
      cases hret
      exact h.withProxy p.dst q p.delivered

theorem TargetSound.step (hcfg : cfg.Sized) {e : PathEvent} (hs : p.SourceSound cfg sha1) (h : p.TargetSound sha1)
    (hinj : Set.InjOn sha1 p.occurred) (hevent : e.Genuine sha1) (hstep : pathNext cfg sha1 host p e = .ok p') : p'.TargetSound sha1 := by
  cases e with
  | read data =>
      cases hstep
      exact ⟨h.delivered_le, h.ready, h.ready_others, h.plain, h.holds, h.pending⟩
  | serve forceProcess hint sh =>
      obtain ⟨r, hserve, hret⟩ := bind_eq_ok.mp hstep
      cases hret
      have hserved := serveUser_served hcfg hs.ready hserve
      have hkey : p.src.isHttpProxy = false → r.ci.key = p.src.key := by
        intro hplain
        rcases (hserved.takes hcfg hs.ready).2 with ⟨-, hci⟩ | ⟨line, htakes⟩
        · rw [hci]
        · exact htakes.key_eq hplain
      exact h.serve hs hkey _
  | source ci =>
      cases hstep
      exact ⟨h.delivered_le, h.ready, h.ready_others, h.plain, h.holds, h.pending⟩
  | receive pickPeer =>
      rcases receive_cases hstep with rfl | ⟨o, r, ho, hmessage, rfl⟩
      · exact h
      · exact h.receive hs ho hmessage
  | own e =>
      obtain ⟨q, dst, hnext, hdst, rfl⟩ := own_cases hstep
      exact h.own hcfg hinj hevent.1 hevent.2 hnext hdst
  | other e =>
      obtain ⟨q, hnext, hret⟩ := bind_eq_ok.mp hstep
      cases hret
      exact h.other hcfg hevent hnext

/-- Both ends of a path: the source as long as its messages are counted, and the destination as long as SHA1 tells the chunks
apart that have occurred. -/
def Sound (cfg : Config) (sha1 : Bytes → Sha1Name) (p : Path) : Prop :=
  p.Counts cfg → p.SourceSound cfg sha1 ∧ (Set.InjOn sha1 p.occurred → p.TargetSound sha1)

theorem genuinePath_sound (hcfg : cfg.Sized) : (genuinePath cfg sha1 host).Invariant (Sound cfg sha1) where
  init := fun _ hinit _ => ⟨.start hinit, fun _ => .start hinit⟩
  step := by
    intro p e p' h hstep hcounts
    obtain ⟨hoccurred, hlength⟩ := pathNext_mono hstep.2
    obtain ⟨hsource, htarget⟩ := h fun hskip => hlength.trans_lt (hcounts hskip)
    refine ⟨hsource.step hcfg hcounts hstep.2, fun hinj => ?_⟩
    have hbefore := hinj.mono hoccurred
    exact (htarget hbefore).step hcfg hsource hbefore hstep.1 hstep.2

theorem sent_prefix (hs : p.SourceSound cfg sha1) (ht : p.TargetSound sha1) : p.dst.sent <+: meantBytes p.isHttp p.consumed := by
  obtain ⟨pending, -, hbytes, -⟩ := ht.pending
  have hsent : p.dst.sent <+: payload p.out := by
    refine List.IsPrefix.trans ⟨pending.flatten.flatten, hbytes⟩ p.received_prefix
  cases hproxy : p.src.isHttpProxy with
  | false =>
      obtain ⟨line, hconsumed, hline⟩ := hs.opened hproxy
      rw [hconsumed, hline.meantBytes_append]
      exact hsent
  | true =>
      rw [(hs.unopened hproxy).2.1] at hsent
      rw [List.prefix_nil.mp hsent]
      exact List.nil_prefix

end Path

/-- In every run of a path with genuine bodies, as long as SHA1 tells the chunks apart that have occurred: what was handed to
`SendData` for the destination comes first in what was taken from the user of the source, without the line that opens an
HTTP proxy connection. -/
theorem path_transparent {cfg : Config} {sha1 : Bytes → Sha1Name} {host : Bytes → Option (BitVec 32 × BitVec 16)} (hcfg : cfg.Sized)
    {events : List PathEvent} {p : Path} (hrun : (genuinePath cfg sha1 host).Runs events p) (hinj : Set.InjOn sha1 p.occurred)
    (hcount : cfg.skipFirstChunk = true → p.out.length < 2 ^ 32) : p.dst.sent <+: meantBytes p.isHttp p.consumed := by
  obtain ⟨hsource, htarget⟩ := (Path.genuinePath_sound hcfg).holds hrun hcount
  exact Path.sent_prefix hsource (htarget hinj)

/-! ## A path that has its proxy for itself -/

/-- The event stores nothing but the bodies in the messages of the path. -/
def PathEvent.Alone : PathEvent → Prop
  | .own e => e = .schedule 0 ∨ e = .reconstruct 0
  | .other _ => False
  | _ => True

namespace Path

variable {cfg : Config} {sha1 : Bytes → Sha1Name} {host : Bytes → Option (BitVec 32 × BitVec 16)} {p p' : Path}

/-- Only chunks of the messages have occurred. -/
structure OnlyMessages (p : Path) : Prop where
  holds : HoldsOnly (fun _ block => block ∈ chunksOf p.out) p.proxy.tmp
  occurred : p.occurred ⊆ chunksOf p.out

theorem blocksOf_subset {S : Set Bytes} {tmp : TempCache} (h : HoldsOnly (fun _ block => block ∈ S) tmp) : blocksOf tmp ⊆ S := by
  rintro block ⟨n, value, hvalue, rfl⟩
  exact h n value hvalue

theorem OnlyMessages.withProxy (h : p.OnlyMessages) (proxy : Proxy) (hproxy : HoldsOnly (fun _ block => block ∈ chunksOf p.out) proxy.tmp)
    (dst : UserConnection) (delivered : Nat) : OnlyMessages { p.withProxy dst proxy with delivered := delivered } :=
  ⟨hproxy, Set.union_subset h.occurred (blocksOf_subset hproxy)⟩

theorem OnlyMessages.step {e : PathEvent} (hs : p.SourceSound cfg sha1) (h : p.OnlyMessages) (halone : e.Alone)
    (hstep : pathNext cfg sha1 host p e = .ok p') : p'.OnlyMessages := by
  cases e with
  | read data =>
      cases hstep
      exact ⟨h.holds, h.occurred⟩
  | serve forceProcess hint sh =>
      obtain ⟨r, -, hret⟩ := bind_eq_ok.mp hstep
      cases hret
      have hold : chunksOf p.out ⊆ chunksOf (p.out ++ r.out) := fun _ ⟨o, ho, hchunk⟩ => ⟨o, List.mem_append_left _ ho, hchunk⟩
      have hnew : chunksOf r.out ⊆ chunksOf (p.out ++ r.out) := fun _ ⟨o, ho, hchunk⟩ => ⟨o, List.mem_append_right _ ho, hchunk⟩
      exact ⟨h.holds.mono fun _ _ hblock => hold hblock, Set.union_subset (h.occurred.trans hold) hnew⟩
  | source ci =>
      cases hstep
      exact ⟨h.holds, h.occurred⟩
  | receive pickPeer =>
      rcases receive_cases hstep with rfl | ⟨o, r, ho, hmessage, rfl⟩
      · exact h
      · have hmem := List.mem_of_getElem? ho
        have hdelivered := (hs.announced o hmem).1.delivered hmessage
        refine h.withProxy _ ?_ _ _
        obtain ⟨users, tmp⟩ := r
        cases hdelivered with
        | elsewhere _ => exact h.holds
        | raw _ _ => exact h.holds
        | names _ _ _ hholds => exact hholds _ h.holds fun chunk hchunk => ⟨o, hmem, hchunk⟩
  | own e =>
      obtain ⟨q, dst, hnext, -, rfl⟩ := own_cases hstep
      have hholds : HoldsOnly (fun _ block => block ∈ chunksOf p.out) q.tmp := by
        rcases halone with rfl | rfl
        · obtain ⟨ci, -, hret⟩ := bind_eq_ok.mp hnext
          cases hret
          exact h.holds
        · obtain ⟨r, hrec, hret⟩ := bind_eq_ok.mp hnext
          cases hret
          obtain ⟨r₁, hentries, hret⟩ := bind_eq_ok.mp hrec
          cases hret
          exact reconstructEntries_holdsOnly h.holds hentries
      exact h.withProxy { q with users := p.proxy.users } hholds dst p.delivered
  | other e => cases halone

end Path

/-- On a path that has its proxy for itself, the chunks that occur are those its messages name. -/
theorem alone_occurred {cfg : Config} {sha1 : Bytes → Sha1Name} {host : Bytes → Option (BitVec 32 × BitVec 16)} (hcfg : cfg.Sized)
    {events : List PathEvent} {p : Path} (hrun : ((genuinePath cfg sha1 host).restrict fun _ e => e.Alone).Runs events p)
    (hcount : cfg.skipFirstChunk = true → p.out.length < 2 ^ 32) : p.occurred ⊆ chunksOf p.out := by
  have hsound : (genuinePath cfg sha1 host).Invariant (Path.Sound cfg sha1) := Path.genuinePath_sound hcfg
  have honly : ((genuinePath cfg sha1 host).restrict fun _ e => e.Alone).Invariant fun p =>
      p.Sound cfg sha1 ∧ (p.Counts cfg → p.OnlyMessages) := by
    constructor
    · rintro p hinit
      refine ⟨hsound.init p hinit, fun _ => ?_⟩
      obtain ⟨forward, forward', src, dst, srcKey, dstKey, isHttpProxy, hints, table, -, -, rfl⟩ := hinit
      exact ⟨holdsOnly_empty _, Set.empty_subset _⟩
    · intro p e p' h hstep
      refine ⟨hsound.step p e p' h.1 hstep.2, fun hcounts => ?_⟩
      obtain ⟨-, hlength⟩ := Path.pathNext_mono hstep.2.2
      have hbefore : p.Counts cfg := fun hskip => hlength.trans_lt (hcounts hskip)
      exact (h.2 hbefore).step (h.1 hbefore).1 hstep.1 hstep.2.2
  exact ((honly.holds hrun).2 hcount).occurred

/-- A path between two new connections, and what happens on it. -/
def runPath (cfg : Config) (host : Bytes → Option (BitVec 32 × BitVec 16)) (srcKey dstKey : ConnectionID) (isHttpProxy : Bool)
    (events : List PathEvent) : Run Path := do
  let src ← createUserConnectionInfo cfg true
  let dst ← createUserConnectionInfo cfg false
  events.foldlM (pathNext cfg calcSHA1Sig host) ⟨{ src with key := srcKey, isHttpProxy := isHttpProxy }, [], 0, { dst with key := dstKey },
    ⟨[], emptyTempCache, ⟨[], []⟩, default⟩, isHttpProxy, [], ∅⟩

theorem runPath_runs {cfg : Config} {host : Bytes → Option (BitVec 32 × BitVec 16)} {srcKey dstKey : ConnectionID} {isHttpProxy : Bool}
    {events : List PathEvent} {p : Path} (h : runPath cfg host srcKey dstKey isHttpProxy events = .ok p) :
    (pathSystem cfg calcSHA1Sig host).Runs events p := by
  obtain ⟨src, hsrc, h⟩ := bind_eq_ok.mp h
  obtain ⟨dst, hdst, hfold⟩ := bind_eq_ok.mp h
  have hstart : (pathSystem cfg calcSHA1Sig host).Runs [] _ :=
    .start ⟨true, false, src, dst, srcKey, dstKey, isHttpProxy, ⟨[], []⟩, default, hsrc, hdst, rfl⟩
  exact System.runs_foldlM hstart hfold

/-- The sample is sent and received, and what can be reconstructed of it is. -/
def samplePath : List PathEvent :=
  [.read sampleData, .serve true (fun _ => false) ⟨emptyTempCache, default⟩, .receive fun _ => 0, .receive fun _ => 0, .own (.schedule 0),
    .own (.reconstruct 0)]

/-- The chunks of the sample. -/
def sampleChunks : List Bytes := [sampleChunk, (sampleData.drop 31).take 2, (sampleData.drop 33).take 7]

theorem sampleChunks_distinct : ∀ a ∈ sampleChunks, ∀ b ∈ sampleChunks, calcSHA1Sig a = calcSHA1Sig b → a = b := by
  decide +kernel

theorem samplePath_genuine : ∀ e ∈ samplePath, e.Genuine calcSHA1Sig ∧ e.Alone := by
  intro e he
  simp only [samplePath, List.mem_cons, List.not_mem_nil, or_false] at he
  rcases he with rfl | rfl | rfl | rfl | rfl | rfl
  · exact ⟨trivial, trivial⟩
  · exact ⟨trivial, trivial⟩
  · exact ⟨trivial, trivial⟩
  · exact ⟨trivial, trivial⟩
  · exact ⟨⟨trivial, rfl⟩, .inl rfl⟩
  · exact ⟨⟨trivial, rfl⟩, .inr rfl⟩

theorem path_transparent_sample : ∃ p, (genuinePath sampleConfig calcSHA1Sig fun _ => none).Runs samplePath p ∧
    Set.InjOn calcSHA1Sig p.occurred ∧ p.dst.sent = sampleData ∧ p.dst.sent <+: meantBytes p.isHttp p.consumed := by
  obtain ⟨p, hrun, hlook⟩ := @Run.exists_of_map _ _ (runPath sampleConfig (fun _ => none) sampleConn sampleConn.reverse false samplePath)
    (fun p => (p.dst.sent, (p.out.map Outgoing.chunks).flatten)) (sampleData, sampleChunks) (by decide +kernel)
  simp only [Prod.mk.injEq] at hlook
  obtain ⟨hsent, hchunks⟩ := hlook
  have hgenuine : (genuinePath sampleConfig calcSHA1Sig fun _ => none).Runs samplePath p :=
    (runPath_runs hrun).restrict fun e he _ => (samplePath_genuine e he).1
  have hcount : sampleConfig.skipFirstChunk = true → p.out.length < 2 ^ 32 := fun hskip => by cases hskip
  have hoccurred := alone_occurred sampleConfig_sized (hgenuine.restrict fun e he _ => (samplePath_genuine e he).2) hcount
  have hmem : ∀ chunk ∈ p.occurred, chunk ∈ sampleChunks := by
    intro chunk hchunk
    obtain ⟨o, ho, hin⟩ := hoccurred hchunk
    rw [← hchunks]
    exact List.mem_flatten_of_mem (List.mem_map_of_mem ho) hin
  have hinj : Set.InjOn calcSHA1Sig p.occurred := fun a ha b hb hab => sampleChunks_distinct a (hmem a ha) b (hmem b hb) hab
  exact ⟨p, hgenuine, hinj, hsent, path_transparent sampleConfig_sized hgenuine hinj hcount⟩

/-- The line `X-WaproxTarget: 10.0.0.2:80`. -/
def targetLine : Bytes := [0x58, 0x2d, 0x57, 0x61, 0x70, 0x72, 0x6f, 0x78, 0x54, 0x61, 0x72, 0x67, 0x65, 0x74, 0x3a, 0x20, 0x31,
  0x30, 0x2e, 0x30, 0x2e, 0x30, 0x2e, 0x32, 0x3a, 0x38, 0x30, 0x0a]

/-- An HTTP proxy connection takes the line with its target from the user and does not send it. -/
theorem target_line_dropped : ∃ events p, (genuinePath rawConfig calcSHA1Sig fun _ => some (0x0a000002, 80)).Runs events p ∧
    Set.InjOn calcSHA1Sig p.occurred ∧ p.consumed = targetLine ++ sampleData ∧ p.dst.sent = sampleData ∧ ¬ p.dst.sent <+: p.consumed := by
  obtain ⟨p, hrun, hlook⟩ := @Run.exists_of_map _ _ (runPath rawConfig (fun _ => some (0x0a000002, 80)) ⟨0x0a000001, 5000, 0, 0⟩
      sampleConn.reverse true [.read (targetLine ++ sampleData), .serve true (fun _ => false) ⟨emptyTempCache, default⟩,
        .receive fun _ => 0])
    (fun p => (p.consumed, p.dst.sent, (p.out.map Outgoing.chunks).flatten)) (targetLine ++ sampleData, sampleData, []) (by decide +kernel)
  simp only [Prod.mk.injEq] at hlook
  obtain ⟨hconsumed, hsent, hchunks⟩ := hlook
  have hevents : ∀ e ∈ [PathEvent.read (targetLine ++ sampleData), .serve true (fun _ => false) ⟨emptyTempCache, default⟩,
      .receive fun _ => 0],
      e.Genuine calcSHA1Sig ∧ e.Alone := by
    intro e he
    simp only [List.mem_cons, List.not_mem_nil, or_false] at he
    rcases he with rfl | rfl | rfl <;> exact ⟨trivial, trivial⟩
  have hgenuine := (runPath_runs hrun).restrict fun e he _ => (hevents e he).1
  have hoccurred := alone_occurred rawConfig_sized (System.Runs.restrict hgenuine fun e he _ => (hevents e he).2)
    fun hskip => by cases hskip
  have hnone : ∀ chunk, chunk ∉ p.occurred := by
    intro chunk hchunk
    obtain ⟨o, ho, hin⟩ := hoccurred hchunk
    have hflat := List.mem_flatten_of_mem (List.mem_map_of_mem ho) hin
    rw [hchunks] at hflat
    cases hflat
  refine ⟨_, p, hgenuine, fun a ha => absurd ha (hnone a), hconsumed, hsent, ?_⟩
  rw [hconsumed, hsent]
  decide +kernel

end BeagleCache

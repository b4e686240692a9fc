import BeagleCache.TempCache
import BeagleCache.Sha1

/-! What a sender does with a block up to the message: build the tree, resolve it against the send hints,
select the candidates, measure the message and keep the candidates in the temporary cache. -/

namespace BeagleCache

open Tiling Collapse

/-- `Calc_SHA1Sig`. -/
def calcSHA1Sig (buf : Bytes) : Sha1Name := ⟨Sha1.digest buf, Sha1.digest_length buf⟩

/-- The calls of `ProcessOneRabinChunking2` from `MakeTree` to `GetCandidateList2`: the resolved table, the
lowest level, the candidates, and the table with their marks. -/
def resolveBlock (cfg : Config) (sha1 : Bytes → Sha1Name) (hint : Sha1Name → Bool) (table : NameTable) (psrc : Bytes) (r : PreMRC) :
    Run (NameTable × Nat × List OneCandidate × NameTable) := do
  let names ← makeTree r.pNames.length r.pli (tableOf table r.pNames)
  let resolved ← resolveWithHint cfg sha1 hint r.pNames.length psrc r.rbSize r.pli names
  let selected ← getCandidateList2 cfg r.pNames.length r.pli resolved.2 resolved.1
  return (resolved.1, resolved.2, selected.1, selected.2)

/-- The tables `tmp_ht` can be, from its creation on. -/
inductive CacheReachable (cfg : Config) (sha1 : Bytes → Sha1Name) : TempCache → Prop
  | empty : CacheReachable cfg sha1 emptyTempCache
  | put {tmp tmp' : TempCache} {name : Sha1Name} {buffer : Bytes} : CacheReachable cfg sha1 tmp →
      refPutChunkCallback cfg sha1 tmp name buffer = .ok tmp' → CacheReachable cfg sha1 tmp'
  | flush {tmp tmp' : TempCache} {name : Sha1Name} : CacheReachable cfg sha1 tmp →
      refFlushChunk tmp name = .ok tmp' → CacheReachable cfg sha1 tmp'

theorem CacheReachable.valid {cfg : Config} {sha1 : Bytes → Sha1Name} {tmp : TempCache} (h : CacheReachable cfg sha1 tmp) :
    ValidCache tmp := by
  induction h with
  | empty => exact validCache_empty
  | put _ hput ih =>
      rcases refPut_cases ih hput with ⟨-, rfl⟩ | ⟨-, hvalid, -⟩
      · exact ih
      · exact hvalid
  | @flush tmp tmp' name _ hflush ih =>
      by_cases hpos : 0 < refs tmp name
      · obtain ⟨tmp₁, hrun, hvalid, -⟩ := refFlush_ok ih hpos
        rw [hflush] at hrun
        cases hrun
        exact hvalid
      · rw [refFlush_none ih (by omega)] at hflush
        cases hflush

/-- The bytes a candidate takes in the message. -/
def OneCandidate.wireLength (c : OneCandidate) : Nat := sizeofWAOneChunk + if c.hasContent then c.length else 0

theorem getCandidateMessageLength_eq {offset n : Nat} {cands : List OneCandidate}
    (htiles : Tiles OneCandidate.offset OneCandidate.length offset n cands) :
    getCandidateMessageLength offset cands = .ok ((cands.map OneCandidate.wireLength).sum, cands.length) := by
  induction cands generalizing offset with
  | nil => rfl
  | cons c rest ih =>
      obtain ⟨hoff, -, htail⟩ := htiles
      rw [getCandidateMessageLength, check_of hoff.symm, Run.ok_bind, ih htail]
      rfl

section Send

variable {cfg : Config} {window minSize maxSize bsize : Nat} {rctx : RabinCtx} {table : NameTable} {psrc : Bytes} {r : PreMRC}

theorem maxNames_gt_one (hcfg : cfg.Sized) : 1 < cfg.maxNames := by
  obtain ⟨k, hk, -, hsize⟩ := mem_chunkSizes hcfg.chunkSize_mem
  have hpow : 2 ^ 5 ≤ 2 ^ k := Nat.pow_le_pow_right (by decide) hk
  have hlevel := hcfg.maxLevel_pos
  calc 1 < cfg.chunkSize := by omega
    _ ≤ cfg.maxNames := Nat.le_mul_of_pos_right _ hlevel

theorem maxLevel_of_one_way (h : cfg.numMRCWays = 1) : cfg.maxLevel = 1 := by
  rw [Config.maxLevel, if_neg (by omega)]

/-- The tree of a block, resolved and with its candidates selected. -/
structure SelectedBlock (cfg : Config) (sha1 : Bytes → Sha1Name) (hint : Sha1Name → Bool) (psrc : Bytes) (r : PreMRC)
    (names : NameTable) (low : Nat) (cands : List OneCandidate) (names' : NameTable) : Prop where
  tree : ChunkTree psrc r.rbSize r.pNames.length r.pli names
  low_lt : low < r.pli.length
  resolved : ∀ k, k < r.pNames.length → (names k).level ≤ low → Resolved sha1 hint names k
  list : getCandidateList2 cfg r.pNames.length r.pli low names = .ok (cands, names')
  same : SameButMarks names names'
  selected : Selected sha1 psrc r.rbSize names' cands
  chosen : ∀ c, c ∈ cands ↔ ∃ k, Chosen (tree.levelTree low_lt) (HitIn names) k ∧ c = toCandidate (names' k)
  names_le : r.pNames.length ≤ cfg.maxNames

/-- Where `DoPreMRC` returns, the tree is made and resolved, and the candidates are selected. -/
theorem selectBlock (hcfg : cfg.Sized) (hctx : rctx.Ready window minSize maxSize) (hpre : doPreMRC cfg table rctx psrc = .ok r)
    (sha1 : Bytes → Sha1Name) (hint : Sha1Name → Bool) :
    ∃ names names₁ low cands names₂, makeTree r.pNames.length r.pli (tableOf table r.pNames) = .ok names ∧
      resolveWithHint cfg sha1 hint r.pNames.length psrc r.rbSize r.pli names = .ok (names₁, low) ∧
      SelectedBlock cfg sha1 hint psrc r names₁ low cands names₂ := by
  obtain ⟨names, htree, ht, hfresh, hunmarked, hnum, hpli, -⟩ := doPreMRC_chunkTree hcfg hctx hpre
  obtain ⟨names₁, low, hresolve, hlow, hsame, hmarks, hresolved⟩ := resolveWithHint_eq cfg sha1 hint ht hfresh
  have ht₁ := hsame.tree ht
  have hunmarked₁ : Unmarked names₁ r.pNames.length := by
    intro k hk
    rw [hmarks k]
    exact hunmarked k hk
  have hways : cfg.numMRCWays = 1 → r.pli.length = 1 := by
    intro h
    rw [hpli, maxLevel_of_one_way h]
  obtain ⟨cands, names₂, hlist, hsame₂, hselected, hchosen⟩ := getCandidateList2_eq ht₁ hlow hresolved hunmarked₁
    (maxNames_gt_one hcfg) hnum hways
  exact ⟨names, names₁, low, cands, names₂, htree, hresolve, ht₁, hlow, hresolved, hlist, hsame₂, hselected, hchosen, hnum⟩

/-- For every block and every content of the hint table, the candidates tile the block in list order, the
hash of each is ready and that of its bytes, and measuring and storing them fails no assertion. -/
theorem candidates_cover_block (hcfg : cfg.Sized) (hwindow : 0 < window) (hctx : rctx.Used bsize window minSize maxSize)
    (hpre : doPreMRC cfg table rctx psrc = .ok r) (sha1 : Bytes → Sha1Name) (hint : Sha1Name → Bool) {tmp : TempCache}
    (htmp : CacheReachable cfg sha1 tmp) (seqNo : BitVec 32) :
    ∃ names names₁ low cands names₂ len cb tmp',
      makeTree r.pNames.length r.pli (tableOf table r.pNames) = .ok names ∧
      resolveWithHint cfg sha1 hint r.pNames.length psrc r.rbSize r.pli names = .ok (names₁, low) ∧
      getCandidateList2 cfg r.pNames.length r.pli low names₁ = .ok (cands, names₂) ∧
      Tiles OneCandidate.offset OneCandidate.length 0 (names₂ 0).length cands ∧
      (∀ c ∈ cands, c = toCandidate (names₂ c.index) ∧ (names₂ c.index).isSha1Ready = true ∧
        c.sha1name = sha1 ((psrc.drop c.offset).take c.length)) ∧
      getCandidateMessageLength 0 cands = .ok (len, cands.length) ∧
      createNewChunkBuffer2 cfg sha1 psrc r.rbSize seqNo names₂ r.pNames.length cands low tmp = .ok (cb, tmp') := by
  obtain ⟨names, names₁, low, cands, names₂, htree, hresolve, hblock⟩ := selectBlock hcfg (hctx.ready hwindow) hpre sha1 hint
  have hselected := hblock.selected
  have hroot : (names₂ 0).length = r.rbSize := (hblock.same.sameTree.tree hblock.tree).root_eq.2
  have hlen := getCandidateMessageLength_eq hselected.tiles
  obtain ⟨tmp', hput⟩ := putTempCacheCandidateList_ok cfg htmp.valid hblock.tree.size_le hblock.tree.size_max
    hselected.tiles hselected.name_eq
  have hcreate := createNewChunkBuffer2_eq seqNo names₂ low hblock.tree.size_pos hblock.tree.num_pos hblock.names_le hput
  refine ⟨names, names₁, low, cands, names₂, _, _, tmp', htree, hresolve, hblock.list, ?_, ?_, hlen, hcreate⟩
  · rw [hroot]
    exact hselected.tiles
  · intro c hc
    exact ⟨hselected.entry c hc, hselected.ready c hc, hselected.name_eq c hc⟩

theorem sampleData_chunks : ∃ rctx r, startRabinCtx sampleConfig = .ok rctx ∧
    doPreMRC sampleConfig default rctx sampleData = .ok r := by
  obtain ⟨rctx, hrctx⟩ : ∃ rctx, startRabinCtx sampleConfig = .ok rctx := ⟨_, rfl⟩
  have hlen := congrArg List.length sampleData_boundaries
  rw [List.length_map] at hlen
  obtain ⟨rctx', hpre, -⟩ := doPreMRC_eq sampleConfig_sized (by decide) ((RabinCtx.Used.init hrctx).ready (by decide)) default
    (by decide) (by decide) (hlen.trans_le (by decide))
  exact ⟨rctx, _, hrctx, hpre⟩

/-- The hint table that holds the first chunk of the second level of the sample. -/
def sampleHint (name : Sha1Name) : Bool := decide (name = calcSHA1Sig (sampleData.take 31))

theorem candidates_cover_block_sample : ∃ rctx r names names₁ low cands names₂ len cb tmp',
    startRabinCtx sampleConfig = .ok rctx ∧ doPreMRC sampleConfig default rctx sampleData = .ok r ∧
    makeTree r.pNames.length r.pli (tableOf default r.pNames) = .ok names ∧
    resolveWithHint sampleConfig calcSHA1Sig sampleHint r.pNames.length sampleData r.rbSize r.pli names = .ok (names₁, low) ∧
    getCandidateList2 sampleConfig r.pNames.length r.pli low names₁ = .ok (cands, names₂) ∧
    Tiles OneCandidate.offset OneCandidate.length 0 (names₂ 0).length cands ∧
    (∀ c ∈ cands, c = toCandidate (names₂ c.index) ∧ (names₂ c.index).isSha1Ready = true ∧
      c.sha1name = calcSHA1Sig ((sampleData.drop c.offset).take c.length)) ∧
    getCandidateMessageLength 0 cands = .ok (len, cands.length) ∧
    createNewChunkBuffer2 sampleConfig calcSHA1Sig sampleData r.rbSize 0 names₂ r.pNames.length cands low emptyTempCache =
      .ok (cb, tmp') := by
  obtain ⟨rctx, r, hrctx, hpre⟩ := sampleData_chunks
  obtain ⟨names, names₁, low, cands, names₂, len, cb, tmp', h⟩ := candidates_cover_block sampleConfig_sized (by decide)
    (RabinCtx.Used.init hrctx) hpre calcSHA1Sig sampleHint CacheReachable.empty 0
  exact ⟨rctx, r, names, names₁, low, cands, names₂, len, cb, tmp', hrctx, hpre, h⟩

/-! ## Redundant content -/

/-- No byte of a large hit goes into the message: a candidate that is a hit and carries no content covers
it. -/
def SendsNoKnownByte (names : NameTable) (numNames low : Nat) (cands : List OneCandidate) : Prop :=
  ∀ k, k < numNames → (names k).level ≤ low → (names k).isHit = true → waproxMinChunkSize < (names k).length →
    ∀ x, Holds (offOf names) (lenOf names) k x →
      ∃ c ∈ cands, Holds OneCandidate.offset OneCandidate.length c x ∧ c.isHit = true ∧ c.hasContent = false

/-- Every missed chunk above `low` with a large hit among its children has a miss among them too. -/
def MissesSpread (names : NameTable) (numNames low : Nat) : Prop :=
  ∀ p, p < numNames → (names p).isHit = false →
    (∃ c, c < numNames ∧ c ≠ 0 ∧ (names c).level ≤ low ∧ parentOf names c = p ∧ (names c).isHit = true ∧
      waproxMinChunkSize < (names c).length) →
    ∃ c, c < numNames ∧ c ≠ 0 ∧ (names c).level ≤ low ∧ parentOf names c = p ∧ (names c).isHit = false

section Redundant

variable {sha1 : Bytes → Sha1Name} {hint : Sha1Name → Bool} {names names' : NameTable} {low : Nat} {cands : List OneCandidate}

theorem child_iff {rbSize numNames : Nat} {pli : List MRCPerLevelInfo} (ht : ChunkTree psrc rbSize numNames pli names)
    (hlow : low < pli.length) (c p : Nat) :
    (ht.levelTree hlow).Child c p ↔ c < numNames ∧ c ≠ 0 ∧ (names c).level ≤ low ∧ parentOf names c = p := by
  constructor
  · rintro ⟨hnode, hpos, hp⟩
    exact ⟨hnode.1, (ht.level_pos_iff hnode.1).mp hpos, hnode.2, hp⟩
  · rintro ⟨hnum, hne, hlevel, hp⟩
    exact ⟨⟨hnum, hlevel⟩, (ht.level_pos_iff hnum).mpr hne, hp⟩

theorem large_parent {rbSize numNames : Nat} {pli : List MRCPerLevelInfo} (ht : ChunkTree psrc rbSize numNames pli names)
    (hlow : low < pli.length) (c k : Nat) (hc : (ht.levelTree hlow).Child c k) (hlarge : waproxMinChunkSize < lenOf names c) :
    waproxMinChunkSize < lenOf names k := by
  obtain ⟨hnode, hpos, rfl⟩ := hc
  obtain ⟨-, -, -, h1, h2⟩ := ht.parent_spec hnode.1 ((ht.level_pos_iff hnode.1).mp hpos)
  have : lenOf names c ≤ lenOf names (parentOf names c) := by omega
  exact lt_of_lt_of_le hlarge this

/-- The chosen node that covers a byte of a large hit is large, so that its content stays away when it is a
hit. -/
theorem chosen_large {rbSize numNames : Nat} {pli : List MRCPerLevelInfo} (ht : ChunkTree psrc rbSize numNames pli names)
    (hlow : low < pli.length) (hresolved : ∀ k, k < numNames → (names k).level ≤ low → Resolved sha1 hint names k)
    {h k x : Nat} (hh : (ht.levelTree hlow).node h) (hhit : HitIn names h) (hlarge : waproxMinChunkSize < lenOf names h)
    (hx : Holds (offOf names) (lenOf names) h x) (hk : Chosen (ht.levelTree hlow) (HitIn names) k)
    (hkx : Holds (offOf names) (lenOf names) k x) : waproxMinChunkSize < lenOf names k := by
  have hcollapsed := collapsed_of_hit (hit_inherited ht hlow hresolved) hh hhit
  let large (c : Nat) : Prop := waproxMinChunkSize < lenOf names c
  exact LevelTree.ascend (P := large) (large_parent ht hlow) hk.1.node hh hkx hx (hk.level_le hcollapsed hkx hx) hlarge

theorem sendsNoKnownByte_iff (hblock : SelectedBlock cfg sha1 hint psrc r names low cands names') :
    SendsNoKnownByte names r.pNames.length low cands ↔ MissesSpread names r.pNames.length low := by
  have ht := hblock.tree
  have hcovered := hits_covered_iff (hit_inherited ht hblock.low_lt hblock.resolved) (large_parent ht hblock.low_lt)
  have hbool : ∀ k, ¬ HitIn names k ↔ (names k).isHit = false := fun k => by rw [HitIn, Bool.not_eq_true]
  constructor
  · intro hsends p hp hmiss hsome
    obtain ⟨c, hc1, hc2, hc3, hc4, hhit, hlong⟩ := hsome
    have hchild := (child_iff ht hblock.low_lt c p).mpr ⟨hc1, hc2, hc3, hc4⟩
    have hnode : (ht.levelTree hblock.low_lt).node p := by
      have := (ht.levelTree hblock.low_lt).parent_node hchild.1 hchild.2.1
      rwa [hchild.2.2] at this
    obtain ⟨d, hd, hdmiss⟩ := hcovered.mp (by
      intro h x hh hhhit hhlarge hhx
      obtain ⟨cand, hcand, hcx, hchit, -⟩ := hsends h hh.1 hh.2 hhhit hhlarge x hhx
      obtain ⟨k, hk, rfl⟩ := (hblock.chosen cand).mp hcand
      refine ⟨k, hk, ?_, ?_⟩
      · have hcx' : Holds (offOf names') (lenOf names') k x := hcx
        rwa [hblock.same.sameTree.offOf_eq, hblock.same.sameTree.lenOf_eq] at hcx'
      · have hchit' : (names' k).isHit = true := hchit
        rwa [hblock.same.isHit_eq] at hchit') p hnode ((hbool p).mpr hmiss) ⟨c, hchild, hhit, hlong⟩
    obtain ⟨h1, h2, h3, h4⟩ := (child_iff ht hblock.low_lt d p).mp hd
    exact ⟨d, h1, h2, h3, h4, (hbool d).mp hdmiss⟩
  · intro hspread k hk hlevel hhit hlong x hx
    obtain ⟨j, hj, hjx, hjhit⟩ := hcovered.mpr (by
      intro p hp hmiss hsome
      obtain ⟨c, hchild, hchit, hclong⟩ := hsome
      obtain ⟨h1, h2, h3, h4⟩ := (child_iff ht hblock.low_lt c p).mp hchild
      obtain ⟨d, g1, g2, g3, g4, g5⟩ := hspread p hp.1 ((hbool p).mp hmiss) ⟨c, h1, h2, h3, h4, hchit, hclong⟩
      exact ⟨d, (child_iff ht hblock.low_lt d p).mpr ⟨g1, g2, g3, g4⟩, (hbool d).mpr g5⟩) k x ⟨hk, hlevel⟩ hhit hlong hx
    have hjlarge := chosen_large ht hblock.low_lt hblock.resolved ⟨hk, hlevel⟩ hhit hlong hx hj hjx
    have hisHit : (toCandidate (names' j)).isHit = true := by
      rw [toCandidate, hblock.same.isHit_eq]
      exact hjhit
    have hlength : (toCandidate (names' j)).length = lenOf names j := congrFun hblock.same.sameTree.lenOf_eq j
    refine ⟨toCandidate (names' j), (hblock.chosen _).mpr ⟨j, hj, rfl⟩, ?_, hisHit, ?_⟩
    · show Holds (offOf names') (lenOf names') j x
      rw [hblock.same.sameTree.offOf_eq, hblock.same.sameTree.lenOf_eq]
      exact hjx
    · rw [OneCandidate.hasContent, hisHit, hlength]
      simpa using hjlarge

end Redundant

/-- A block is sent without redundant content exactly when no missed chunk has only hits for children with a
large one among them. -/
theorem block_sends_no_known_byte_iff (hcfg : cfg.Sized) (hwindow : 0 < window) (hctx : rctx.Used bsize window minSize maxSize)
    (hpre : doPreMRC cfg table rctx psrc = .ok r) (sha1 : Bytes → Sha1Name) (hint : Sha1Name → Bool) :
    ∃ names names₁ low cands names₂, makeTree r.pNames.length r.pli (tableOf table r.pNames) = .ok names ∧
      resolveWithHint cfg sha1 hint r.pNames.length psrc r.rbSize r.pli names = .ok (names₁, low) ∧
      getCandidateList2 cfg r.pNames.length r.pli low names₁ = .ok (cands, names₂) ∧
      (SendsNoKnownByte names₁ r.pNames.length low cands ↔ MissesSpread names₁ r.pNames.length low) := by
  obtain ⟨names, names₁, low, cands, names₂, htree, hresolve, hblock⟩ := selectBlock hcfg (hctx.ready hwindow) hpre sha1 hint
  exact ⟨names, names₁, low, cands, names₂, htree, hresolve, hblock.list, sendsNoKnownByte_iff hblock⟩

theorem block_sends_no_known_byte_iff_sample : ∃ rctx r names names₁ low cands names₂, startRabinCtx sampleConfig = .ok rctx ∧
    doPreMRC sampleConfig default rctx sampleData = .ok r ∧
    makeTree r.pNames.length r.pli (tableOf default r.pNames) = .ok names ∧
    resolveWithHint sampleConfig calcSHA1Sig sampleHint r.pNames.length sampleData r.rbSize r.pli names = .ok (names₁, low) ∧
    getCandidateList2 sampleConfig r.pNames.length r.pli low names₁ = .ok (cands, names₂) ∧
    (SendsNoKnownByte names₁ r.pNames.length low cands ↔ MissesSpread names₁ r.pNames.length low) := by
  obtain ⟨rctx, r, hrctx, hpre⟩ := sampleData_chunks
  obtain ⟨names, names₁, low, cands, names₂, h⟩ := block_sends_no_known_byte_iff sampleConfig_sized (by decide)
    (RabinCtx.Used.init hrctx) hpre calcSHA1Sig sampleHint
  exact ⟨rctx, r, names, names₁, low, cands, names₂, hrctx, hpre, h⟩

/-- The sample, chunked and resolved. -/
def sampleRun : Run (RabinCtx × PreMRC × NameTable × Nat × List OneCandidate × NameTable) := do
  let rctx ← startRabinCtx sampleConfig
  let r ← doPreMRC sampleConfig default rctx sampleData
  let x ← resolveBlock sampleConfig calcSHA1Sig sampleHint default sampleData r
  return (rctx, r, x)

/-- The sample is a block of 33 bytes that is no hit, over a chunk of 31 bytes that is one and a chunk of 2
bytes that counts as one. Both are replaced by the block, so all its bytes are sent. -/
theorem known_chunk_sent_again : ∃ rctx r names names₁ low cands names₂, startRabinCtx sampleConfig = .ok rctx ∧
    doPreMRC sampleConfig default rctx sampleData = .ok r ∧
    makeTree r.pNames.length r.pli (tableOf default r.pNames) = .ok names ∧
    resolveWithHint sampleConfig calcSHA1Sig sampleHint r.pNames.length sampleData r.rbSize r.pli names = .ok (names₁, low) ∧
    getCandidateList2 sampleConfig r.pNames.length r.pli low names₁ = .ok (cands, names₂) ∧
    ¬ SendsNoKnownByte names₁ r.pNames.length low cands := by
  have hlook : sampleRun.toOption.map (fun (_, r, names, low, cands, _) =>
      ((r.pNames.length, low, (names 1).isHit, (names 1).level), (names 1).offset, (names 1).length,
        cands.map OneCandidate.isHit)) = some ((3, 1, true, 1), 0, 31, [false]) := by decide +kernel
  obtain ⟨⟨rctx, r, names₁, low, cands, names₂⟩, hrun, hlook⟩ := Run.exists_of_map hlook
  simp only [Prod.mk.injEq] at hlook
  obtain ⟨⟨hnum, hlow, hhit, hlevel⟩, hoff, hlen, hcands⟩ := hlook
  obtain ⟨rctx', hrctx, hrun⟩ := Run.bind_eq_ok.mp hrun
  obtain ⟨r', hpre, hrun⟩ := Run.bind_eq_ok.mp hrun
  obtain ⟨x, hblock, hret⟩ := Run.bind_eq_ok.mp hrun
  cases hret
  obtain ⟨names, htree, hblock⟩ := Run.bind_eq_ok.mp hblock
  obtain ⟨resolved, hresolve, hblock⟩ := Run.bind_eq_ok.mp hblock
  obtain ⟨selected, hlist, hret⟩ := Run.bind_eq_ok.mp hblock
  cases hret
  refine ⟨rctx, r, names, _, _, _, _, hrctx, hpre, htree, hresolve, hlist, ?_⟩
  intro hsends
  obtain ⟨c, hc, -, hchit, -⟩ := hsends 1 (by omega) (by omega) hhit (by rw [hlen]; decide) 0
    ⟨by rw [offOf, hoff], by rw [offOf, lenOf, hoff, hlen]; decide⟩
  have hmem : c.isHit ∈ selected.1.map OneCandidate.isHit := List.mem_map_of_mem hc
  rw [hcands, hchit] at hmem
  simp at hmem

end Send

end BeagleCache

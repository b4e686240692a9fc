import BeagleCache.ChunkCache
import BeagleCache.Selection

/-! The temporary cache as a count of references. Storing a chunk adds a reference to its name and flushing
it takes one away, so a list of names can be flushed exactly when the table counts each of them often
enough. A candidate list of a block can always be stored. -/

namespace BeagleCache

open Tiling Function Run

/-- The references the table counts for a name. -/
def refs (tmp : TempCache) (n : Sha1Name) : Nat :=
  match tmp n with
  | none => 0
  | some value => value.refCount.toNat

def blockOf (tmp : TempCache) (n : Sha1Name) : Option Bytes := (tmp n).map CacheValue.pBlock

/-- An entry that is referenced and holds a block of a size the program stores. -/
def ValidEntry (value : CacheValue) : Prop :=
  1 ≤ value.refCount ∧ 0 < value.pBlock.length ∧ value.pBlock.length ≤ maxChunkSize

def ValidCache (tmp : TempCache) : Prop := ∀ n value, tmp n = some value → ValidEntry value

theorem validCache_empty : ValidCache emptyTempCache := by
  intro n value h
  cases h

/-- A reference to `name` was added; an entry that was not there holds `buffer`. -/
structure AddRef (tmp tmp' : TempCache) (name : Sha1Name) (buffer : Bytes) : Prop where
  refs_eq : ∀ n, refs tmp' n = refs tmp n + if n = name then 1 else 0
  block_eq : ∀ n, blockOf tmp' n = if n = name then some ((blockOf tmp name).getD buffer) else blockOf tmp n

/-- A reference to `name` was taken away. -/
structure DropRef (tmp tmp' : TempCache) (name : Sha1Name) : Prop where
  refs_eq : ∀ n, refs tmp' n + (if n = name then 1 else 0) = refs tmp n
  block_eq : ∀ n, 0 < refs tmp' n → blockOf tmp' n = blockOf tmp n

section Steps

variable {cfg : Config} {sha1 : Bytes → Sha1Name} {tmp tmp' : TempCache} {name : Sha1Name} {buffer : Bytes}

theorem refs_of_some {value : CacheValue} (h : tmp name = some value) : refs tmp name = value.refCount.toNat := by
  rw [refs, h]

theorem refs_of_none (h : tmp name = none) : refs tmp name = 0 := by
  rw [refs, h]

theorem refs_pos_iff (hvalid : ValidCache tmp) : 0 < refs tmp name ↔ ∃ value, tmp name = some value := by
  cases h : tmp name with
  | none => simp [refs_of_none h]
  | some value =>
      have := (hvalid name value h).1
      rw [refs_of_some h]
      constructor
      · exact fun _ => ⟨value, rfl⟩
      · intro _
        omega

theorem validCache_update (hvalid : ValidCache tmp) {value : Option CacheValue} (hvalue : ∀ v, value = some v → ValidEntry v) :
    ValidCache (update tmp name value) := by
  intro n v hn
  by_cases hne : n = name
  · subst hne
    rw [update_self] at hn
    exact hvalue v hn
  · rw [update_of_ne hne] at hn
    exact hvalid n v hn

/-- An update at one name, seen through a function of the entries. -/
theorem update_view {β : Type} (view : TempCache → Sha1Name → β) (hview : ∀ t t' n, t n = t' n → view t n = view t' n)
    (tmp : TempCache) (name : Sha1Name) (value : Option CacheValue) (n : Sha1Name) :
    view (update tmp name value) n = if n = name then view (fun _ => value) name else view tmp n := by
  by_cases hne : n = name
  · subst hne
    rw [if_pos rfl]
    exact hview _ _ _ (update_self ..)
  · rw [if_neg hne]
    exact hview _ _ _ (update_of_ne hne ..)

theorem refs_update (tmp : TempCache) (name : Sha1Name) (value : Option CacheValue) (n : Sha1Name) :
    refs (update tmp name value) n = if n = name then refs (fun _ => value) name else refs tmp n :=
  update_view refs (fun _ _ _ h => by rw [refs, refs, h]) tmp name value n

theorem blockOf_update (tmp : TempCache) (name : Sha1Name) (value : Option CacheValue) (n : Sha1Name) :
    blockOf (update tmp name value) n = if n = name then value.map CacheValue.pBlock else blockOf tmp n :=
  update_view blockOf (fun _ _ _ h => by rw [blockOf, blockOf, h]) tmp name value n

theorem refPut_cases (hvalid : ValidCache tmp) (h : refPutChunkCallback cfg sha1 tmp name buffer = .ok tmp') :
    (buffer = [] ∧ tmp' = tmp) ∨ (buffer ≠ [] ∧ ValidCache tmp' ∧ AddRef tmp tmp' name buffer) := by
  unfold refPutChunkCallback at h
  obtain ⟨_, -, h⟩ := bind_eq_ok.mp h
  by_cases hempty : buffer.length = 0
  · rw [if_pos hempty] at h
    cases h
    exact .inl ⟨List.eq_nil_of_length_eq_zero hempty, rfl⟩
  rw [if_neg hempty] at h
  refine .inr ⟨fun hnil => hempty (by rw [hnil]; rfl), ?_⟩
  unfold searchCache at h
  cases hold : tmp name with
  | none =>
      rw [hold] at h
      obtain ⟨_, hmax, h⟩ := bind_eq_ok.mp h
      rw [check_eq_ok] at hmax
      cases h
      have hentry : ValidEntry ⟨buffer, 1⟩ := ⟨le_refl _, Nat.pos_of_ne_zero hempty, hmax⟩
      refine ⟨validCache_update hvalid (by rintro v ⟨⟩; exact hentry), ?_, ?_⟩
      · intro n
        rw [refs_update]
        by_cases hne : n = name
        · rw [if_pos hne, if_pos hne, hne, refs_of_none hold]
          rfl
        · rw [if_neg hne, if_neg hne, Nat.add_zero]
      · intro n
        rw [blockOf_update, show blockOf tmp name = none by rw [blockOf, hold]; rfl]
        rfl
  | some old =>
      rw [hold] at h
      obtain ⟨_, href, h⟩ := bind_eq_ok.mp h
      rw [check_eq_ok] at href
      cases h
      obtain ⟨-, hsize⟩ := hvalid name old hold
      have hentry : ValidEntry { old with refCount := old.refCount + 1 } := ⟨by simp only; omega, hsize⟩
      refine ⟨validCache_update hvalid (by rintro v ⟨⟩; exact hentry), ?_, ?_⟩
      · intro n
        rw [refs_update]
        by_cases hne : n = name
        · rw [if_pos hne, if_pos hne, hne, refs_of_some hold, refs]
          simp only
          omega
        · rw [if_neg hne, if_neg hne, Nat.add_zero]
      · intro n
        rw [blockOf_update, show blockOf tmp name = some old.pBlock by rw [blockOf, hold]; rfl]
        rfl

/-- A chunk of the right size under its own name can be stored in every valid table. -/
theorem refPut_ok (cfg : Config) (hvalid : ValidCache tmp) (hname : sha1 buffer = name) (hmax : buffer.length ≤ maxChunkSize) :
    ∃ tmp', refPutChunkCallback cfg sha1 tmp name buffer = .ok tmp' := by
  unfold refPutChunkCallback searchCache
  rw [check_of (by simp [verifySHA1, hname]), ok_bind]
  by_cases hempty : buffer.length = 0
  · exact ⟨tmp, by rw [if_pos hempty]; rfl⟩
  · rw [if_neg hempty]
    cases hold : tmp name with
    | none => exact ⟨_, by simp only [check_of hmax]; rfl⟩
    | some old => exact ⟨_, by simp only [check_of (hvalid name old hold).1]; rfl⟩

theorem refFlush_ok (hvalid : ValidCache tmp) (hpos : 0 < refs tmp name) :
    ∃ tmp', refFlushChunk tmp name = .ok tmp' ∧ ValidCache tmp' ∧ DropRef tmp tmp' name := by
  obtain ⟨old, hold⟩ := (refs_pos_iff hvalid).mp hpos
  obtain ⟨href, hlen, hmax⟩ := hvalid name old hold
  unfold refFlushChunk searchCache
  rw [hold]
  simp only
  rw [check_of hlen, ok_bind, check_of (by omega), ok_bind]
  by_cases hzero : old.refCount - 1 = 0
  · refine ⟨_, by rw [if_pos hzero]; rfl, validCache_update hvalid (by rintro v ⟨⟩), ?_, ?_⟩
    · intro n
      rw [refs_update]
      by_cases hne : n = name
      · rw [if_pos hne, if_pos hne, hne, refs_of_some hold, refs]
        simp only
        omega
      · rw [if_neg hne, if_neg hne, Nat.add_zero]
    · intro n hn
      rw [refs_update] at hn
      rw [blockOf_update]
      by_cases hne : n = name
      · rw [if_pos hne] at hn
        exact absurd hn (Nat.lt_irrefl 0)
      · rw [if_neg hne]
  · have hentry : ValidEntry { old with refCount := old.refCount - 1 } := ⟨by simp only; omega, hlen, hmax⟩
    refine ⟨_, by rw [if_neg hzero]; rfl, validCache_update hvalid (by rintro v ⟨⟩; exact hentry), ?_, ?_⟩
    · intro n
      rw [refs_update]
      by_cases hne : n = name
      · rw [if_pos hne, if_pos hne, hne, refs_of_some hold, refs]
        simp only
        omega
      · rw [if_neg hne, if_neg hne, Nat.add_zero]
    · intro n _
      rw [blockOf_update]
      by_cases hne : n = name
      · rw [if_pos hne, hne, blockOf, hold]
        rfl
      · rw [if_neg hne]

theorem refFlush_none (hvalid : ValidCache tmp) (hzero : refs tmp name = 0) : refFlushChunk tmp name = .error .assertion := by
  have hnone : tmp name = none := by
    by_contra hsome
    obtain ⟨value, hvalue⟩ := Option.ne_none_iff_exists'.mp hsome
    have := (refs_pos_iff hvalid).mpr ⟨value, hvalue⟩
    omega
  rw [refFlushChunk, searchCache, hnone]

end Steps

/-! ## Lists of names -/

/-- The names of a candidate list. -/
def namesIn (cands : List OneCandidate) : List Sha1Name := cands.map OneCandidate.sha1name

theorem count_namesIn_cons (n : Sha1Name) (c : OneCandidate) (cands : List OneCandidate) :
    (namesIn (c :: cands)).count n = (namesIn cands).count n + if n = c.sha1name then 1 else 0 := by
  rw [namesIn, List.map_cons, List.count_cons, ← namesIn]
  simp only [beq_iff_eq]
  by_cases h : n = c.sha1name
  · rw [if_pos h, if_pos h.symm]
  · rw [if_neg h, if_neg (Ne.symm h)]

section Lists

variable {tmp tmp' : TempCache}

/-- The candidates of a buffer can be flushed exactly when the table counts each of their names as often as
the list holds it. -/
theorem flushCandidates_iff {cands : List OneCandidate} (hvalid : ValidCache tmp) :
    (∃ tmp', flushCandidates cands tmp = .ok tmp') ↔ ∀ n, (namesIn cands).count n ≤ refs tmp n := by
  induction cands generalizing tmp with
  | nil => simp [flushCandidates, namesIn]
  | cons c rest ih =>
      by_cases hpos : 0 < refs tmp c.sha1name
      · obtain ⟨tmp₁, hrun, hvalid₁, hdrop⟩ := refFlush_ok hvalid hpos
        rw [flushCandidates, hrun, ok_bind, ih hvalid₁]
        apply forall_congr'
        intro n
        have hrefs := hdrop.refs_eq n
        rw [count_namesIn_cons]
        omega
      · rw [flushCandidates, refFlush_none hvalid (by omega)]
        constructor
        · rintro ⟨_, ⟨⟩⟩
        · intro hcount
          have := hcount c.sha1name
          rw [count_namesIn_cons, if_pos rfl] at this
          omega

theorem flushCandidates_refs {cands : List OneCandidate} (hvalid : ValidCache tmp) (h : flushCandidates cands tmp = .ok tmp') :
    ValidCache tmp' ∧ ∀ n, refs tmp' n + (namesIn cands).count n = refs tmp n := by
  induction cands generalizing tmp with
  | nil =>
      cases h
      exact ⟨hvalid, fun n => rfl⟩
  | cons c rest ih =>
      rw [flushCandidates] at h
      obtain ⟨tmp₁, hrun, h⟩ := bind_eq_ok.mp h
      by_cases hpos : 0 < refs tmp c.sha1name
      · obtain ⟨tmp₂, hrun₂, hvalid₂, hdrop⟩ := refFlush_ok hvalid hpos
        rw [hrun] at hrun₂
        cases hrun₂
        obtain ⟨hvalid', hrefs⟩ := ih hvalid₂ h
        refine ⟨hvalid', ?_⟩
        intro n
        have h1 := hrefs n
        have h2 := hdrop.refs_eq n
        rw [count_namesIn_cons]
        omega
      · rw [refFlush_none hvalid (by omega)] at hrun
        cases hrun

/-- What `PutTempCacheCandidateList` does to the counts where it returns. -/
theorem putTempCacheCandidateList_refs {cfg : Config} {sha1 : Bytes → Sha1Name} {buffer : Bytes} {buflen offset : Nat}
    {cands : List OneCandidate} (hvalid : ValidCache tmp) (hpos : ∀ c ∈ cands, 0 < c.length)
    (h : putTempCacheCandidateList cfg sha1 buffer buflen offset cands tmp = .ok tmp') :
    ValidCache tmp' ∧ ∀ n, refs tmp' n = refs tmp n + (namesIn cands).count n := by
  induction cands generalizing tmp offset with
  | nil =>
      rw [putTempCacheCandidateList] at h
      obtain ⟨_, -, h⟩ := bind_eq_ok.mp h
      cases h
      exact ⟨hvalid, fun n => rfl⟩
  | cons c rest ih =>
      rw [putTempCacheCandidateList] at h
      obtain ⟨chunk, hread, h⟩ := bind_eq_ok.mp h
      obtain ⟨tmp₁, hput, h⟩ := bind_eq_ok.mp h
      obtain ⟨_, -, h⟩ := bind_eq_ok.mp h
      have hlen : chunk.length = c.length := readAt_length hread
      rcases refPut_cases hvalid hput with ⟨hnil, -⟩ | ⟨-, hvalid₁, hadd⟩
      · have := hpos c (by simp)
        rw [hnil] at hlen
        simp only [List.length_nil] at hlen
        omega
      · obtain ⟨hvalid', hrefs⟩ := ih hvalid₁ (fun d hd => hpos d (List.mem_cons_of_mem c hd)) h
        refine ⟨hvalid', ?_⟩
        intro n
        rw [hrefs n, hadd.refs_eq n, count_namesIn_cons]
        omega

/-- The candidates of a block can be stored in every valid table. -/
theorem putTempCacheCandidateList_ok (cfg : Config) {sha1 : Bytes → Sha1Name} {buffer : Bytes} {buflen offset : Nat}
    {cands : List OneCandidate} (hvalid : ValidCache tmp) (hbuf : buflen ≤ buffer.length) (hmax : buflen ≤ maxChunkSize)
    (htiles : Tiles OneCandidate.offset OneCandidate.length offset buflen cands)
    (hname : ∀ c ∈ cands, c.sha1name = sha1 ((buffer.drop c.offset).take c.length)) :
    ∃ tmp', putTempCacheCandidateList cfg sha1 buffer buflen offset cands tmp = .ok tmp' := by
  induction cands generalizing tmp offset with
  | nil =>
      have hend : offset = buflen := htiles
      exact ⟨tmp, by rw [putTempCacheCandidateList, check_of hend]; rfl⟩
  | cons c rest ih =>
      obtain ⟨hoff, hpos, htail⟩ := htiles
      have hend := tiles_le htail
      have hread : readAt buffer offset c.length = .ok ((buffer.drop c.offset).take c.length) := by
        rw [readAt, if_pos (by omega), hoff]
      have hlen := readAt_length hread
      obtain ⟨tmp₁, hput⟩ := refPut_ok cfg hvalid (hname c (by simp)).symm (show _ ≤ maxChunkSize by omega)
      have hvalid₁ : ValidCache tmp₁ := by
        rcases refPut_cases hvalid hput with ⟨-, rfl⟩ | ⟨-, hvalid₁, -⟩
        · exact hvalid
        · exact hvalid₁
      obtain ⟨tmp', hrest⟩ := ih hvalid₁ htail fun d hd => hname d (List.mem_cons_of_mem c hd)
      refine ⟨tmp', ?_⟩
      rw [putTempCacheCandidateList, hread, ok_bind, hput, ok_bind, check_of hend, ok_bind, hrest]

theorem createNewChunkBuffer2_eq {cfg : Config} {sha1 : Bytes → Sha1Name} {pBlock : Bytes} {length numNames : Nat}
    {list : List OneCandidate} (seqNo : BitVec 32) (pMRC : NameTable) (lowLevel : Nat) (hlen : 0 < length) (hnum : 0 < numNames)
    (hmax : numNames ≤ cfg.maxNames) (hput : putTempCacheCandidateList cfg sha1 pBlock length 0 list tmp = .ok tmp') :
    createNewChunkBuffer2 cfg sha1 pBlock length seqNo pMRC numNames list lowLevel tmp =
      .ok (⟨(List.range numNames).map pMRC, list, seqNo, length, lowLevel⟩, tmp') := by
  unfold createNewChunkBuffer2 createNewChunkBuffer
  rw [check_of hlen, check_of hnum, check_of hmax, hput]
  rfl

end Lists

end BeagleCache

import BeagleCache.ReceivedTree
import BeagleCache.Transition

/-! The lookup of a received chunk tree, level by level, in the memory cache at once or on disk with an event for every
answer. A chunk that waits for its answer counts as missing, so the bytes of the missing chunks of a level are right at
any moment, and the order of the answers does not matter. -/

namespace BeagleCache.TreeLookup

open Transition Function Run

/-! ## The code -/

/-- The fields of `ChunkTreeInfo` that a lookup writes. -/
@[ext] structure Lookup where
  chunkState : Nat → Bool
  curResolvingLevel : Nat
  numChunkUnresolved : Nat
  lowLevel : Nat
  numMissingChunks : Nat
  bytesMissingChunks : Int
  numLocalHits : Nat
  bytesHits : Int
  numLocalMisses : Nat

/-- As `InitChunkTreeInfo` leaves them. -/
def initLookup : Lookup := ⟨fun _ => false, 0, 1, 0, 0, 0, 0, 0, 0⟩

def Lookup.setState (r : Lookup) (k : Nat) (isHit : Bool) : Lookup := { r with chunkState := update r.chunkState k isHit }

/-- The fields `ResolveOneLevel` starts from. -/
def startLevel (i : Nat) (r : Lookup) : Lookup :=
  { r with
    curResolvingLevel := i
    numMissingChunks := 0
    numChunkUnresolved := 0
    lowLevel := max r.lowLevel i }

section Code

variable (cfg : Config) (t : ChunkTreeInfo)

/-- The body of the loop of `ResolveOneLevel`: the fields, and whether the chunk is to be looked up. -/
def resolveChunk (level newIdx : Nat) (r : Lookup) : Run (Lookup × Bool) := do
  inBounds (newIdx < t.numNames)
  let parent ← getParent2 t.pNames newIdx
  check (0 < level → parent < newIdx)
  check (newIdx < cfg.maxNames)
  let length := (t.pNames newIdx).length
  let r := r.setState newIdx false
  if 0 < level ∧ r.chunkState parent = true then return (r.setState newIdx true, false)
  else if length = 0 then return (r.setState newIdx true, false)
  else if 0 < level ∧ length = (t.pNames parent).length then do
    check (r.chunkState parent = false)
    return ({ r.setState newIdx false with numMissingChunks := r.numMissingChunks + 1 }, false)
  else do
    inBounds (r.numChunkUnresolved < cfg.maxNames)
    return ({ r with numChunkUnresolved := r.numChunkUnresolved + 1 }, true)

/-- The loop of `ResolveOneLevel`, with the part of `chunksToLookup` it writes. -/
def resolveChunks (level : Nat) : List Nat → Lookup → Run (Lookup × List Nat)
  | [], r => .ok (r, [])
  | newIdx :: rest, r => do
      let one ← resolveChunk cfg t level newIdx r
      let all ← resolveChunks level rest one.1
      return (all.1, if one.2 then newIdx :: all.2 else all.2)

def resolveOneLevel (level : Nat) (r : Lookup) : Run (Lookup × List Nat) := do
  check (level < cfg.maxLevel)
  let all ← resolveChunks cfg t level (t.level level) (startLevel level r)
  check (all.1.numChunkUnresolved ≤ (t.perLevelInfo.getD level default).numNames)
  return all

/-- `UpdateLookupResult`, without the statistics of all trees together. -/
def updateLookupResult (isHit : Bool) (newIdx : Nat) (r : Lookup) : Run Lookup := do
  check (0 < r.numChunkUnresolved)
  let r := { r.setState newIdx isHit with numChunkUnresolved := r.numChunkUnresolved - 1 }
  if isHit then do
    let length : Int := (t.pNames newIdx).length
    check (0 ≤ r.bytesMissingChunks - length)
    return { r with
      bytesMissingChunks := r.bytesMissingChunks - length
      numLocalHits := r.numLocalHits + 1
      bytesHits := r.bytesHits + length }
  else return { r with
    numMissingChunks := r.numMissingChunks + 1
    numLocalMisses := r.numLocalMisses + 1 }

section Memory

variable {σ : Type} (cb : σ → Sha1Name → Bool × σ)

/-- The loop of `ResolveMRCTreeInMemory` over the chunks to look up. -/
def lookupChunks : List Nat → Lookup → σ → Run (Lookup × σ)
  | [], r, s => if 0 < r.numChunkUnresolved then .error .overrun else .ok (r, s)
  | newIdx :: rest, r, s =>
      if 0 < r.numChunkUnresolved then do
        let answer := cb s (t.pNames newIdx).sha1name
        let r ← updateLookupResult t answer.1 newIdx r
        lookupChunks rest r answer.2
      else .ok (r, s)

/-- The missing chunks and bytes of an earlier level, kept for the assertions. -/
structure Previous where
  numMissingChunks : Nat
  bytesMissingChunks : Int

/-- The comparison with the earlier level. -/
def compareLevels (prev : Previous) (r : Lookup) : Run Previous :=
  if r.bytesMissingChunks < prev.bytesMissingChunks then .ok ⟨r.numMissingChunks, r.bytesMissingChunks⟩
  else if prev.bytesMissingChunks = r.bytesMissingChunks then do
    check (prev.numMissingChunks ≤ r.numMissingChunks)
    return prev
  else .error .assertion

/-- The loop over the levels, `n` of them from `i` on. -/
def lookupLevels : Nat → Nat → Previous → Lookup → σ → Run ((Lookup × σ) × Previous)
  | 0, _, prev, r, s => .ok ((r, s), prev)
  | n + 1, i, prev, r, s => do
      let level ← resolveOneLevel cfg t i r
      let after ← lookupChunks t cb level.2 level.1 s
      let prev ← compareLevels prev after.1
      if after.1.numMissingChunks = 0 then do
        check (after.1.bytesMissingChunks = 0)
        return (after, prev)
      else lookupLevels n (i + 1) prev after.1 after.2

def resolveMRCTreeInMemory (r : Lookup) (s : σ) : Run (Lookup × σ) := do
  let length : Int := (t.pNames 0).length
  let r := { r with
    bytesMissingChunks := length
    numMissingChunks := 0
    lowLevel := 0
    numLocalHits := 0
    numLocalMisses := 0
    bytesHits := 0 }
  let prevBytesMissingChunks := (BitVec.ofInt 32 (length * 2)).toInt
  check (length < prevBytesMissingChunks)
  check (0 < r.bytesMissingChunks)
  let last ← lookupLevels cfg t cb t.numLevels 0 ⟨0, prevBytesMissingChunks⟩ r s
  let r := last.1.1
  check (0 ≤ r.bytesMissingChunks)
  check (r.bytesMissingChunks = last.2.bytesMissingChunks)
  check (last.2.numMissingChunks ≤ r.numMissingChunks)
  check (0 < r.bytesMissingChunks → 0 < r.numMissingChunks)
  check (r.bytesHits + r.bytesMissingChunks = length)
  return last.1

end Memory

section Disk

/-- A tree that is looked up on disk: the requests without an answer, and whether `LastProcessNameTreeDelivery` was called. -/
structure DiskLookup where
  fields : Lookup
  pending : List Nat
  complete : Bool

/-- `ResolveOneLevelDisk`: the level is done or requests are on their way. -/
def resolveOneLevelDisk (level : Nat) (d : DiskLookup) : Run (DiskLookup × Bool) := do
  let all ← resolveOneLevel cfg t level d.fields
  let d := { d with fields := all.1, pending := d.pending ++ all.2.take all.1.numChunkUnresolved }
  return (d, decide (all.1.numChunkUnresolved = 0))

/-- The loops that go down the levels as long as nothing has to be waited for. -/
def goDown : List Nat → DiskLookup → Run DiskLookup
  | [], d => .ok { d with complete := true }
  | level :: rest, d => do
      let r ← resolveOneLevelDisk cfg t level d
      if r.2 then goDown rest r.1 else return r.1

/-- What `ProcessNameTreeDelivery` does with a tree. -/
def processNameTreeDelivery : Run DiskLookup := do
  let r := { initLookup with bytesMissingChunks := (t.pNames 0).length }
  check (0 < r.bytesMissingChunks)
  goDown cfg t (List.range t.numLevels) ⟨r, [], false⟩

/-- `PostProcessNameTreeDelivery` for the answer to the request for the chunk `index`. -/
def postProcessNameTreeDelivery (isHit : Bool) (index : Nat) (d : DiskLookup) : Run DiskLookup := do
  let r ← updateLookupResult t isHit index d.fields
  let d := { d with fields := r, pending := d.pending.erase index }
  if 0 < r.numChunkUnresolved then return d
  else if r.numMissingChunks = 0 then do
    check (r.bytesMissingChunks = 0)
    return { d with complete := true }
  else do
    check (0 < r.bytesMissingChunks)
    goDown cfg t (List.range' (r.curResolvingLevel + 1) (t.numLevels - (r.curResolvingLevel + 1))) d

/-- The cache answers the requests one by one, in any order: the name is in the cache or not. -/
def diskSystem (cached : Sha1Name → Bool) : System DiskLookup Nat where
  init := fun d => processNameTreeDelivery cfg t = .ok d
  step := fun d index d' => index ∈ d.pending ∧
    postProcessNameTreeDelivery cfg t (cached (t.pNames index).sha1name) index d = .ok d'

end Disk

end Code

/-! ## One level -/

/-- The chunk `k` of level `i` needs no lookup: its parent was hit, or it is empty. -/
def Covered (t : ChunkTreeInfo) (i : Nat) (state : Nat → Bool) (k : Nat) : Prop :=
  (0 < i ∧ state (parentOf t.pNames k) = true) ∨ lenOf t.pNames k = 0

/-- What the loop of `ResolveOneLevel` makes of the chunks of `l`; those of `asked` are looked up. -/
structure Entered (t : ChunkTreeInfo) (i : Nat) (l : List Nat) (r r' : Lookup) (asked : List Nat) : Prop where
  frame : ∀ k, k ∉ l → r'.chunkState k = r.chunkState k
  state : ∀ k ∈ l, r'.chunkState k = true ↔ Covered t i r.chunkState k
  asked_sub : asked.Sublist l
  asked_miss : ∀ k ∈ asked, r'.chunkState k = false
  missing : r'.numMissingChunks + asked.length = r.numMissingChunks + l.countP (fun k => r'.chunkState k = false)
  unresolved : r'.numChunkUnresolved = r.numChunkUnresolved + asked.length
  others : r' =
    { r with
      chunkState := r'.chunkState
      numMissingChunks := r'.numMissingChunks
      numChunkUnresolved := r'.numChunkUnresolved }

section Level

variable {cfg : Config} {t : ChunkTreeInfo} {r r' : Lookup} {i k : Nat}

theorem getParent2_level (ht : ReceivedTree cfg t) (hi : i < t.numLevels) (hk : k ∈ t.level i) :
    ∃ parent, getParent2 t.pNames k = .ok parent ∧ (0 < i → parent = parentOf t.pNames k ∧ parent < k) := by
  cases i with
  | zero =>
      rw [ht.level_zero, List.mem_singleton] at hk
      subst hk
      exact ⟨0, rfl, fun h => absurd h (Nat.lt_irrefl 0)⟩
  | succ i => exact ⟨_, ht.getParent2_eq hi hk, fun _ => ⟨rfl, ht.parent_lt hi hk⟩⟩

theorem resolveChunk_entered (ht : ReceivedTree cfg t) (hi : i < t.numLevels) (hk : k ∈ t.level i)
    (hroom : r.numChunkUnresolved < cfg.maxNames) :
    ∃ r' lookup, resolveChunk cfg t i k r = .ok (r', lookup) ∧ Entered t i [k] r r' (if lookup then [k] else []) := by
  obtain ⟨parent, hparent, hup⟩ := getParent2_level ht hi hk
  have hnum := ht.lt_of_mem hi hk
  have hfits := ht.names_le
  have hstate : 0 < i → (r.setState k false).chunkState parent = r.chunkState (parentOf t.pNames k) := by
    intro hpos
    rw [← (hup hpos).1]
    exact update_of_ne (hup hpos).2.ne _ _
  have hentered : ∀ (isHit lookup : Bool) (missing unresolved : Nat), (isHit = true ↔ Covered t i r.chunkState k) →
      missing + (if lookup then 1 else 0) = r.numMissingChunks + (if isHit then 0 else 1) →
      unresolved = r.numChunkUnresolved + (if lookup then 1 else 0) → (lookup = true → isHit = false) →
      Entered t i [k] r { r.setState k isHit with numMissingChunks := missing, numChunkUnresolved := unresolved }
        (if lookup then [k] else []) := by
    intro isHit lookup missing unresolved hcovered hmissing hunresolved hmiss
    have hself : (r.setState k isHit).chunkState k = isHit := update_self ..
    refine ⟨?_, ?_, ?_, ?_, ?_, ?_, rfl⟩
    · intro j hj
      exact update_of_ne (List.mem_singleton.not.mp hj) _ _
    · intro j hj
      rw [List.mem_singleton.mp hj]
      exact (iff_of_eq (congrArg (· = true) hself)).trans hcovered
    · cases lookup <;> simp
    · intro j hj
      cases lookup with
      | false => cases hj
      | true =>
          rw [List.mem_singleton.mp hj]
          exact hself.trans (hmiss rfl)
    · have hcount : [k].countP (fun j => (r.setState k isHit).chunkState j = false) = if isHit then 0 else 1 := by
        rw [List.countP_singleton, hself]
        cases isHit <;> rfl
      show missing + (if lookup then [k] else []).length =
        r.numMissingChunks + [k].countP (fun j => (r.setState k isHit).chunkState j = false)
      rw [hcount, ← hmissing]
      cases lookup <;> rfl
    · show unresolved = r.numChunkUnresolved + (if lookup then [k] else []).length
      rw [hunresolved]
      cases lookup <;> rfl
  have hset : ∀ isHit, (r.setState k false).setState k isHit = r.setState k isHit := by
    intro isHit
    unfold Lookup.setState
    rw [update_idem]
  unfold resolveChunk
  rw [inBounds_of hnum, ok_bind, hparent, ok_bind, check_of (fun hpos => (hup hpos).2), ok_bind,
    check_of (by omega), ok_bind]
  dsimp only
  rw [hset, hset]
  have hhit : (0 < i ∧ (r.setState k false).chunkState parent = true) ↔
      (0 < i ∧ r.chunkState (parentOf t.pNames k) = true) := and_congr_right fun hpos => by rw [hstate hpos]
  by_cases hcovered : Covered t i r.chunkState k
  · refine ⟨r.setState k true, false, ?_, hentered true false _ _ (by simp [hcovered]) rfl rfl (by simp)⟩
    by_cases hparentHit : 0 < i ∧ (r.setState k false).chunkState parent = true
    · rw [if_pos hparentHit]
      rfl
    · have hempty : (t.pNames k).length = 0 := hcovered.resolve_left (hhit.not.mp hparentHit)
      rw [if_neg hparentHit, if_pos hempty]
      rfl
  · have hmiss := not_or.mp hcovered
    have hfull : ¬ (t.pNames k).length = 0 := hmiss.2
    rw [if_neg (hhit.not.mpr hmiss.1), if_neg hfull]
    by_cases hsame : 0 < i ∧ (t.pNames k).length = (t.pNames parent).length
    · have hparentMiss : (r.setState k false).chunkState parent = false := by
        rw [hstate hsame.1]
        exact Bool.eq_false_iff.mpr fun h => hmiss.1 ⟨hsame.1, h⟩
      rw [if_pos hsame, check_of hparentMiss, ok_bind]
      exact ⟨_, false, rfl, hentered false false _ _ (by simp [hcovered]) rfl rfl (by simp)⟩
    · have hroom' : (r.setState k false).numChunkUnresolved < cfg.maxNames := hroom
      rw [if_neg hsame, inBounds_of hroom', ok_bind]
      exact ⟨_, true, rfl, hentered false true _ _ (by simp [hcovered]) rfl rfl (by simp)⟩

theorem covered_congr (ht : ReceivedTree cfg t) (hi : i < t.numLevels) (hk : k ∈ t.level i) {state state' : Nat → Bool}
    (hframe : ∀ j, j ∉ t.level i → state' j = state j) : Covered t i state' k ↔ Covered t i state k := by
  unfold Covered
  cases i with
  | zero => simp
  | succ i =>
      have hparent : parentOf t.pNames k ∉ t.level (i + 1) := by
        intro hmem
        exact absurd (ht.lt_of_level_lt (Nat.lt_succ_self i) hi (ht.parent_mem hi hk).2 hmem) (Nat.lt_irrefl _)
      rw [hframe _ hparent]

theorem Entered.append (ht : ReceivedTree cfg t) (hi : i < t.numLevels) {l l' asked asked' : List Nat} {r'' : Lookup}
    (hl : ∀ k ∈ l, k ∈ t.level i) (hl' : ∀ k ∈ l', k ∈ t.level i) (hdisj : ∀ k ∈ l, k ∉ l')
    (h : Entered t i l r r' asked) (h' : Entered t i l' r' r'' asked') :
    Entered t i (l ++ l') r r'' (asked ++ asked') := by
  have hfirst : ∀ k ∈ l, r''.chunkState k = r'.chunkState k := fun k hk => h'.frame k (hdisj k hk)
  refine ⟨?_, ?_, h.asked_sub.append h'.asked_sub, ?_, ?_, ?_, ?_⟩
  · intro k hk
    rw [List.mem_append, not_or] at hk
    rw [h'.frame k hk.2, h.frame k hk.1]
  · intro k hk
    rcases List.mem_append.mp hk with hk | hk
    · rw [hfirst k hk]
      exact h.state k hk
    · rw [h'.state k hk]
      exact covered_congr ht hi (hl' k hk) fun j hj => h.frame j fun hmem => hj (hl j hmem)
  · intro k hk
    rcases List.mem_append.mp hk with hk | hk
    · rw [hfirst k (h.asked_sub.subset hk)]
      exact h.asked_miss k hk
    · exact h'.asked_miss k hk
  · have hcount : l.countP (fun k => r''.chunkState k = false) = l.countP (fun k => r'.chunkState k = false) := by
      apply List.countP_congr
      intro k hk
      rw [hfirst k hk]
    have := h.missing
    have := h'.missing
    rw [List.length_append, List.countP_append, hcount]
    omega
  · rw [h'.unresolved, h.unresolved, List.length_append, Nat.add_assoc]
  · rw [h'.others, h.others]

theorem resolveChunks_entered (ht : ReceivedTree cfg t) (hi : i < t.numLevels) {l : List Nat} (hl : ∀ k ∈ l, k ∈ t.level i)
    (hnodup : l.Nodup) (hroom : r.numChunkUnresolved + l.length ≤ cfg.maxNames) :
    ∃ r' asked, resolveChunks cfg t i l r = .ok (r', asked) ∧ Entered t i l r r' asked := by
  induction l generalizing r with
  | nil => exact ⟨r, [], rfl, fun _ _ => rfl, by simp, List.Sublist.refl _, by simp, rfl, rfl, rfl⟩
  | cons k l ih =>
      rw [List.length_cons] at hroom
      obtain ⟨hk, hl⟩ := List.forall_mem_cons.mp hl
      obtain ⟨hkl, hnodup⟩ := List.nodup_cons.mp hnodup
      obtain ⟨r₁, lookup, hone, hentered⟩ := resolveChunk_entered ht hi hk (show r.numChunkUnresolved < cfg.maxNames by omega)
      have hunresolved : r₁.numChunkUnresolved ≤ r.numChunkUnresolved + 1 := by
        rw [hentered.unresolved]
        split <;> simp
      obtain ⟨r', asked, hrest, hentered'⟩ := ih hl hnodup (show r₁.numChunkUnresolved + l.length ≤ cfg.maxNames by omega)
      refine ⟨r', (if lookup then [k] else []) ++ asked, ?_, ?_⟩
      · rw [resolveChunks, hone, ok_bind, hrest, ok_bind]
        cases lookup <;> rfl
      · refine hentered.append ht hi ?_ hl ?_ hentered'
        · simpa using hk
        · simpa using hkl

/-- A level that is being looked up, with the chunks that wait for an answer. They count as missing. -/
structure InLevel (t : ChunkTreeInfo) (i : Nat) (r : Lookup) (pending : List Nat) : Prop where
  level_lt : i < t.numLevels
  cur : r.curResolvingLevel = i
  low : r.lowLevel = i
  bytes : r.bytesMissingChunks = bytesOf t.pNames (fun k => r.chunkState k = false) (t.level i)
  missing : r.numMissingChunks + pending.length = (t.level i).countP (fun k => r.chunkState k = false)
  unresolved : r.numChunkUnresolved = pending.length
  pending_mem : ∀ k ∈ pending, k ∈ t.level i ∧ r.chunkState k = false
  nodup : pending.Nodup
  nonempty : ∀ k ∈ t.level i, r.chunkState k = false → 0 < lenOf t.pNames k
  inherits : ∀ j, j + 1 ≤ i → ∀ k ∈ t.level (j + 1), r.chunkState (parentOf t.pNames k) = true → r.chunkState k = true
  hits : r.bytesHits + r.bytesMissingChunks = lenOf t.pNames 0
  answers : r.numLocalHits + r.numLocalMisses + pending.length ≤
    (t.perLevelInfo.getD i default).firstIndex + (t.perLevelInfo.getD i default).numNames

/-- The fields after an answer. -/
def answered (t : ChunkTreeInfo) (isHit : Bool) (k : Nat) (r : Lookup) : Lookup :=
  if isHit then
    { r.setState k true with
      numChunkUnresolved := r.numChunkUnresolved - 1
      bytesMissingChunks := r.bytesMissingChunks - lenOf t.pNames k
      numLocalHits := r.numLocalHits + 1
      bytesHits := r.bytesHits + lenOf t.pNames k }
  else
    { r.setState k false with
      numChunkUnresolved := r.numChunkUnresolved - 1
      numMissingChunks := r.numMissingChunks + 1
      numLocalMisses := r.numLocalMisses + 1 }

theorem answered_chunkState (isHit : Bool) : (answered t isHit k r).chunkState = update r.chunkState k isHit := by
  cases isHit <;> rfl

/-- All chunks are hits exactly if no byte is missing. -/
theorem InLevel.missing_iff {pending : List Nat} (h : InLevel t i r pending) :
    r.bytesMissingChunks = 0 ↔ r.numMissingChunks = 0 ∧ pending = [] := by
  have hmissing := h.missing
  rw [h.bytes, Int.natCast_eq_zero, bytesOf_eq_zero]
  have hcount : (t.level i).countP (fun k => r.chunkState k = false) = 0 ↔ ∀ k ∈ t.level i, ¬ r.chunkState k = false := by
    rw [List.countP_eq_zero]
    simp
  constructor
  · intro hnone
    have hzero := hcount.mpr fun k hk hmiss => by
      have := h.nonempty k hk hmiss
      have := hnone k hk hmiss
      omega
    exact ⟨by omega, List.eq_nil_of_length_eq_zero (by omega)⟩
  · rintro ⟨hzero, rfl⟩ k hk hmiss
    rw [hzero] at hmissing
    exact absurd hmiss (hcount.mp hmissing.symm k hk)

theorem InLevel.bytes_nonneg {pending : List Nat} (h : InLevel t i r pending) : 0 ≤ r.bytesMissingChunks := by
  rw [h.bytes]
  exact Int.natCast_nonneg _

section Update

variable {state : Nat → Bool} {l : List Nat} {names : NameTable}

theorem update_of_mem_erase (hnodup : l.Nodup) {v : Bool} {j : Nat} (hj : j ∈ l.erase k) : update state k v j = state j :=
  update_of_ne ((List.Nodup.mem_erase_iff hnodup).mp hj).1 _ _

theorem bytesOf_update (hnodup : l.Nodup) (hk : k ∈ l) (hmiss : state k = false) (isHit : Bool) :
    bytesOf names (fun j => update state k isHit j = false) l + (if isHit then lenOf names k else 0) =
      bytesOf names (fun j => state j = false) l := by
  have hperm := List.perm_cons_erase hk
  have hsame : bytesOf names (fun j => update state k isHit j = false) (l.erase k) = bytesOf names (fun j => state j = false) (l.erase k) :=
    bytesOf_congr (fun _ _ => rfl) fun j hj => by rw [update_of_mem_erase hnodup hj]
  rw [bytesOf_perm hperm, bytesOf_perm hperm, bytesOf_cons, bytesOf_cons, hsame, update_self, hmiss]
  cases isHit with
  | true =>
      simp only [Bool.true_eq_false, if_false, if_true]
      omega
  | false => rfl

theorem countP_update (hnodup : l.Nodup) (hk : k ∈ l) (hmiss : state k = false) (isHit : Bool) :
    l.countP (fun j => update state k isHit j = false) + (if isHit then 1 else 0) = l.countP (fun j => state j = false) := by
  have hperm := List.perm_cons_erase hk
  have hsame : (l.erase k).countP (fun j => update state k isHit j = false) = (l.erase k).countP (fun j => state j = false) :=
    List.countP_congr fun j hj => by rw [update_of_mem_erase hnodup hj]
  rw [hperm.countP_eq, hperm.countP_eq, List.countP_cons, List.countP_cons, hsame, update_self, hmiss]
  cases isHit <;> simp

end Update

theorem InLevel.nonempty_update {pending : List Nat} (h : InLevel t i r pending) (hk : k ∈ pending) (isHit : Bool) :
    ∀ j ∈ t.level i, update r.chunkState k isHit j = false → 0 < lenOf t.pNames j := by
  intro j hj hstate
  by_cases hjk : j = k
  · obtain ⟨hlevel, hmiss⟩ := h.pending_mem k hk
    rw [hjk]
    exact h.nonempty k hlevel hmiss
  · rw [update_of_ne hjk] at hstate
    exact h.nonempty j hj hstate

theorem InLevel.inherits_update (ht : ReceivedTree cfg t) {pending : List Nat} (h : InLevel t i r pending) (hk : k ∈ pending)
    (isHit : Bool) :
    ∀ j, j + 1 ≤ i → ∀ c ∈ t.level (j + 1), update r.chunkState k isHit (parentOf t.pNames c) = true →
      update r.chunkState k isHit c = true := by
  obtain ⟨hlevel, hmiss⟩ := h.pending_mem k hk
  intro j hj c hc hup
  have hjlt : j + 1 < t.numLevels := by
    have := h.level_lt
    omega
  have hparent : parentOf t.pNames c ≠ k := by
    intro heq
    have := ht.lt_of_level_lt (show j < i by omega) h.level_lt (ht.parent_mem hjlt hc).2 hlevel
    omega
  rw [update_of_ne hparent] at hup
  have hold := h.inherits j hj c hc hup
  by_cases hck : c = k
  · rw [hck, hmiss] at hold
    cases hold
  · rw [update_of_ne hck]
    exact hold

theorem InLevel.answer (ht : ReceivedTree cfg t) {pending : List Nat} (h : InLevel t i r pending) (hk : k ∈ pending) (isHit : Bool) :
    updateLookupResult t isHit k r = .ok (answered t isHit k r) ∧ InLevel t i (answered t isHit k r) (pending.erase k) := by
  obtain ⟨hlevel, hmiss⟩ := h.pending_mem k hk
  have hlen := List.length_erase_of_mem hk
  have hpos := List.length_pos_of_mem hk
  have hunresolved := h.unresolved
  have hmissing := h.missing
  have hanswers := h.answers
  have hhits := h.hits
  have hbytes := h.bytes
  have hbytesNew : bytesOf t.pNames (fun j => update r.chunkState k isHit j = false) (t.level i) +
      (if isHit then lenOf t.pNames k else 0) = bytesOf t.pNames (fun j => r.chunkState j = false) (t.level i) :=
    bytesOf_update (t.nodup_level i) hlevel hmiss isHit
  have hcountNew := countP_update (t.nodup_level i) hlevel hmiss isHit
  have hpending : ∀ j ∈ pending.erase k, j ∈ t.level i ∧ update r.chunkState k isHit j = false := by
    intro j hj
    rw [update_of_mem_erase h.nodup hj]
    exact h.pending_mem j (List.mem_of_mem_erase hj)
  have hnonempty := h.nonempty_update hk isHit
  have hinherits := h.inherits_update ht hk isHit
  cases isHit with
  | true =>
      simp only [if_true] at hbytesNew hcountNew
      have hfits : 0 ≤ r.bytesMissingChunks - (t.pNames k).length := by
        have : (t.pNames k).length = lenOf t.pNames k := rfl
        omega
      refine ⟨?_, h.level_lt, h.cur, h.low, ?_, ?_, ?_, hpending, h.nodup.erase k, hnonempty, hinherits, ?_, ?_⟩
      · unfold updateLookupResult
        rw [check_of (by omega), ok_bind]
        exact (congrArg (· >>= _) (check_of hfits)).trans rfl
      · show r.bytesMissingChunks - lenOf t.pNames k = _
        simp only [answered_chunkState]
        omega
      · show r.numMissingChunks + (pending.erase k).length = _
        simp only [answered_chunkState]
        omega
      · show r.numChunkUnresolved - 1 = _
        omega
      · show r.bytesHits + lenOf t.pNames k + (r.bytesMissingChunks - lenOf t.pNames k) = _
        omega
      · show r.numLocalHits + 1 + r.numLocalMisses + (pending.erase k).length ≤ _
        omega
  | false =>
      simp only [Bool.false_eq_true, if_false, Nat.add_zero] at hbytesNew hcountNew
      refine ⟨?_, h.level_lt, h.cur, h.low, ?_, ?_, ?_, hpending, h.nodup.erase k, hnonempty, hinherits, h.hits, ?_⟩
      · unfold updateLookupResult
        rw [check_of (by omega), ok_bind]
        rfl
      · show r.bytesMissingChunks = _
        simp only [answered_chunkState]
        omega
      · show r.numMissingChunks + 1 + (pending.erase k).length = _
        simp only [answered_chunkState]
        omega
      · show r.numChunkUnresolved - 1 = _
        omega
      · show r.numLocalHits + (r.numLocalMisses + 1) + (pending.erase k).length ≤ _
        omega

theorem level_length (t : ChunkTreeInfo) (i : Nat) : (t.level i).length = (t.perLevelInfo.getD i default).numNames := by
  rw [ChunkTreeInfo.level, MRCPerLevelInfo.range, List.length_range']

theorem resolveOneLevel_entered (ht : ReceivedTree cfg t) (hi : i < t.numLevels) (r : Lookup) :
    ∃ r' asked, resolveOneLevel cfg t i r = .ok (r', asked) ∧ Entered t i (t.level i) (startLevel i r) r' asked := by
  have hlevels := ht.levels_le
  have hbound := ht.bounds i hi
  have hnames := ht.names_le
  have hlength := level_length t i
  obtain ⟨r', asked, hrun, hentered⟩ := resolveChunks_entered (r := startLevel i r) ht hi (fun _ hk => hk) (t.nodup_level i)
    (show 0 + (t.level i).length ≤ cfg.maxNames by omega)
  have hasked := hentered.asked_sub.length_le
  have hunresolved : r'.numChunkUnresolved = 0 + asked.length := hentered.unresolved
  refine ⟨r', asked, ?_, hentered⟩
  unfold resolveOneLevel
  rw [check_of (by omega), ok_bind]
  rw [hrun, ok_bind]
  dsimp only
  rw [check_of (by omega)]
  rfl

/-- A level has been entered when the bytes are those of the chunks under missing parents. -/
theorem Entered.inLevel (ht : ReceivedTree cfg t) (hi : i < t.numLevels) {asked : List Nat}
    (h : Entered t i (t.level i) (startLevel i r) r' asked) (hlow : r.lowLevel ≤ i)
    (hbytes : r.bytesMissingChunks = bytesOf t.pNames (fun k => ¬ (0 < i ∧ r.chunkState (parentOf t.pNames k) = true)) (t.level i))
    (hinherits : ∀ j, j + 1 < i → ∀ k ∈ t.level (j + 1), r.chunkState (parentOf t.pNames k) = true → r.chunkState k = true)
    (hhits : r.bytesHits + r.bytesMissingChunks = lenOf t.pNames 0)
    (hanswers : r.numLocalHits + r.numLocalMisses ≤ (t.perLevelInfo.getD i default).firstIndex) :
    InLevel t i r' asked ∧ r'.bytesMissingChunks = r.bytesMissingChunks := by
  have hfields := h.others
  have hsame : r'.bytesMissingChunks = r.bytesMissingChunks := by
    rw [hfields]
    rfl
  have hmiss : ∀ k ∈ t.level i, r'.chunkState k = false ↔ ¬ Covered t i r.chunkState k := by
    intro k hk
    have hstate : r'.chunkState k = true ↔ Covered t i r.chunkState k := h.state k hk
    rw [← hstate, Bool.not_eq_true]
  have hasked := h.asked_sub.length_le
  rw [level_length] at hasked
  refine ⟨⟨hi, ?_, ?_, ?_, ?_, ?_, ?_, ?_, ?_, ?_, ?_, ?_⟩, hsame⟩
  · rw [hfields]
    rfl
  · rw [hfields]
    exact max_eq_right hlow
  · rw [hsame, hbytes, Nat.cast_inj]
    -- an empty chunk counts for nothing
    have hsplit := bytesOf_filter t.pNames (fun k => ¬ (0 < i ∧ r.chunkState (parentOf t.pNames k) = true))
      (fun k => lenOf t.pNames k ≠ 0) (t.level i)
    rw [hsplit]
    have hempty : bytesOf t.pNames (fun k => ¬ (0 < i ∧ r.chunkState (parentOf t.pNames k) = true))
        ((t.level i).filter fun k => ¬ lenOf t.pNames k ≠ 0) = 0 := by
      rw [bytesOf_eq_zero]
      intro k hk _
      simpa using (List.mem_filter.mp hk).2
    rw [hempty, Nat.add_zero]
    refine bytesOf_congr (fun _ _ => rfl) fun k hk => ?_
    rw [hmiss k hk, Covered, not_or]
  · have hmissing : r'.numMissingChunks + asked.length = 0 + _ := h.missing
    rw [hmissing, Nat.zero_add]
  · have hunresolved : r'.numChunkUnresolved = 0 + asked.length := h.unresolved
    rw [hunresolved, Nat.zero_add]
  · exact fun k hk => ⟨h.asked_sub.subset hk, h.asked_miss k hk⟩
  · exact (t.nodup_level i).sublist h.asked_sub
  · intro k hk hstate
    have := (not_or.mp ((hmiss k hk).mp hstate)).2
    omega
  · intro j hj k hk hup
    have hjlt : j + 1 < t.numLevels := by omega
    have hparent : r'.chunkState (parentOf t.pNames k) = r.chunkState (parentOf t.pNames k) := by
      refine h.frame _ fun hmem => ?_
      have := ht.lt_of_level_lt (show j < i by omega) hi (ht.parent_mem hjlt hk).2 hmem
      omega
    rw [hparent] at hup
    rcases Nat.eq_or_lt_of_le hj with rfl | hlt
    · exact (h.state k hk).mpr (.inl ⟨Nat.succ_pos j, hup⟩)
    · have hframe : r'.chunkState k = r.chunkState k := by
        refine h.frame _ fun hmem => ?_
        have := ht.lt_of_level_lt hlt hi hk hmem
        omega
      rw [hframe]
      exact hinherits j hlt k hk hup
  · rw [hsame, ← hhits, hfields]
    rfl
  · have hcounts : r'.numLocalHits + r'.numLocalMisses = r.numLocalHits + r.numLocalMisses := by
      rw [hfields]
      rfl
    omega

theorem enter_root (ht : ReceivedTree cfg t) (hlow : r.lowLevel = 0) (hbytes : r.bytesMissingChunks = lenOf t.pNames 0)
    (hhits : r.bytesHits = 0) (hanswers : r.numLocalHits + r.numLocalMisses = 0) :
    ∃ r' asked, resolveOneLevel cfg t 0 r = .ok (r', asked) ∧ InLevel t 0 r' asked ∧
      r'.bytesMissingChunks = r.bytesMissingChunks := by
  obtain ⟨r', asked, hrun, hentered⟩ := resolveOneLevel_entered ht ht.levels_pos r
  refine ⟨r', asked, hrun, hentered.inLevel ht ht.levels_pos hlow.le ?_ ?_ ?_ ?_⟩
  · rw [hbytes, ht.level_zero, bytesOf_cons, if_pos (by omega), bytesOf_nil, Nat.add_zero]
  · intro j hj
    omega
  · rw [hhits, hbytes, Int.zero_add]
  · rw [hanswers]
    exact Nat.zero_le _

theorem InLevel.enter (ht : ReceivedTree cfg t) (h : InLevel t i r []) (hi : i + 1 < t.numLevels) :
    ∃ r' asked, resolveOneLevel cfg t (i + 1) r = .ok (r', asked) ∧
      (InLevel t (i + 1) r' asked ∧ r'.bytesMissingChunks = r.bytesMissingChunks) ∧
      ∀ k, k ∉ t.level (i + 1) → r'.chunkState k = r.chunkState k := by
  obtain ⟨r', asked, hrun, hentered⟩ := resolveOneLevel_entered ht hi r
  refine ⟨r', asked, hrun, hentered.inLevel ht hi ?_ ?_ ?_ h.hits ?_, hentered.frame⟩
  · rw [h.low]
    exact Nat.le_succ i
  · rw [h.bytes, ← ht.bytes_below hi fun k => r.chunkState k = false, Nat.cast_inj]
    refine bytesOf_congr (fun _ _ => rfl) fun k _ => ?_
    simp
  · exact fun j hj => h.inherits j (by omega)
  · have hanswers := h.answers
    have hfirst := ht.first_succ i hi
    rw [List.length_nil] at hanswers
    omega

end Level

/-! ## In memory -/

section Memory

variable {cfg : Config} {t : ChunkTreeInfo} {r r' : Lookup} {i : Nat} {asked : List Nat} {σ : Type}

theorem lookupChunks_eq (ht : ReceivedTree cfg t) (cb : σ → Sha1Name → Bool × σ) (s : σ) (h : InLevel t i r asked) :
    ∃ r' s', lookupChunks t cb asked r s = .ok (r', s') ∧ InLevel t i r' [] ∧
      r'.bytesMissingChunks ≤ r.bytesMissingChunks ∧ ∀ k, k ∉ asked → r'.chunkState k = r.chunkState k := by
  induction asked generalizing r s with
  | nil =>
      refine ⟨r, s, ?_, h, le_refl _, fun _ _ => rfl⟩
      rw [lookupChunks, if_neg (by rw [h.unresolved]; exact Nat.lt_irrefl 0)]
  | cons k asked ih =>
      obtain ⟨hupdate, hnext⟩ := h.answer ht List.mem_cons_self (cb s (t.pNames k).sha1name).1
      rw [List.erase_cons_head] at hnext
      obtain ⟨r', s', hrest, hin, hle, hframe⟩ := ih (cb s (t.pNames k).sha1name).2 hnext
      refine ⟨r', s', ?_, hin, hle.trans ?_, ?_⟩
      · rw [lookupChunks, if_pos (by rw [h.unresolved]; exact Nat.succ_pos _)]
        dsimp only
        rw [hupdate, ok_bind, hrest]
      · unfold answered
        split
        · exact Int.sub_le_self _ (Int.natCast_nonneg _)
        · exact le_refl _
      · intro j hj
        obtain ⟨hjk, hj⟩ := List.mem_cons.not.mp hj |> not_or.mp
        rw [hframe j hj, answered_chunkState, update_of_ne hjk]

/-- Where a level loses no byte, it misses no fewer chunks than the level above. -/
theorem InLevel.missing_le (ht : ReceivedTree cfg t) (h : InLevel t i r []) (h' : InLevel t (i + 1) r' [])
    (hframe : ∀ k, k ∉ t.level (i + 1) → r'.chunkState k = r.chunkState k)
    (hbytes : r'.bytesMissingChunks = r.bytesMissingChunks) : r.numMissingChunks ≤ r'.numMissingChunks := by
  have hi := h'.level_lt
  have hupper : ∀ k ∈ t.level i, r'.chunkState k = r.chunkState k := by
    intro k hk
    refine hframe k fun hmem => ?_
    have := ht.lt_of_level_lt (Nat.lt_succ_self i) hi hk hmem
    omega
  -- every chunk under a missing parent is missing or empty
  have hall : ∀ k ∈ t.level (i + 1), r.chunkState (parentOf t.pNames k) = false → 0 < lenOf t.pNames k →
      r'.chunkState k = false := by
    intro k hk hparent hpos
    have htotal := ht.bytes_below hi fun k => r.chunkState k = false
    have hsplit := bytesOf_filter t.pNames (fun k => r.chunkState (parentOf t.pNames k) = false)
      (fun k => r'.chunkState k = false) (t.level (i + 1))
    have hinner : bytesOf t.pNames (fun k => r.chunkState (parentOf t.pNames k) = false ∧ r'.chunkState k = false) (t.level (i + 1)) =
        bytesOf t.pNames (fun k => r'.chunkState k = false) (t.level (i + 1)) := by
      refine bytesOf_congr (fun _ _ => rfl) fun j hj => ⟨fun hboth => hboth.2, fun hmiss => ⟨?_, hmiss⟩⟩
      by_contra hhit
      have hup := h'.inherits i (le_refl _) j hj
      rw [hupper _ (ht.parent_mem hi hj).2, Bool.not_eq_false] at *
      rw [hup hhit] at hmiss
      cases hmiss
    have h1 := h.bytes
    have h2 := h'.bytes
    have hrest : bytesOf t.pNames (fun k => r.chunkState (parentOf t.pNames k) = false)
        ((t.level (i + 1)).filter fun k => ¬ r'.chunkState k = false) = 0 := by
      omega
    by_contra hhit
    have := bytesOf_eq_zero.mp hrest k (List.mem_filter.mpr ⟨hk, by simpa using hhit⟩) hparent
    omega
  have hsub : ((t.level i).filter fun k => r.chunkState k = false).toFinset ⊆
      ((t.level (i + 1)).filter fun k => r'.chunkState k = false).toFinset.image (parentOf t.pNames) := by
    intro p hp
    obtain ⟨hmem, hmiss⟩ := List.mem_filter.mp (List.mem_toFinset.mp hp)
    have hmiss' : r.chunkState p = false := by simpa using hmiss
    obtain ⟨k, hk, hparent, hpos⟩ := ht.exists_child hi hmem (h.nonempty p hmem hmiss')
    refine Finset.mem_image.mpr ⟨k, List.mem_toFinset.mpr (List.mem_filter.mpr ⟨hk, ?_⟩), hparent⟩
    simpa using hall k hk (hparent ▸ hmiss') hpos
  have hcard := (Finset.card_le_card hsub).trans Finset.card_image_le
  rw [List.toFinset_card_of_nodup ((t.nodup_level i).filter _), List.toFinset_card_of_nodup ((t.nodup_level (i + 1)).filter _),
    ← List.countP_eq_length_filter, ← List.countP_eq_length_filter, ← h.missing, ← h'.missing] at hcard
  simpa using hcard

/-- The fields before level `i`: those of the start, or those of the level above, which misses something. -/
def Before (t : ChunkTreeInfo) (prev : Previous) (r : Lookup) : Nat → Prop
  | 0 => r.lowLevel = 0 ∧ r.bytesMissingChunks = lenOf t.pNames 0 ∧ r.bytesHits = 0 ∧ r.numLocalHits + r.numLocalMisses = 0 ∧
      r.bytesMissingChunks < prev.bytesMissingChunks
  | i + 1 => InLevel t i r [] ∧ r.numMissingChunks ≠ 0 ∧ prev.bytesMissingChunks = r.bytesMissingChunks ∧
      prev.numMissingChunks ≤ r.numMissingChunks

/-- One round of the loop over the levels. -/
structure Round (cfg : Config) (t : ChunkTreeInfo) (cb : σ → Sha1Name → Bool × σ) (i : Nat) (prev : Previous) (r : Lookup) (s : σ)
    (asked : List Nat) (r₁ r' : Lookup) (s' : σ) (prev' : Previous) : Prop where
  enter : resolveOneLevel cfg t i r = .ok (r₁, asked)
  inLevel : InLevel t i r₁ asked
  lookup : lookupChunks t cb asked r₁ s = .ok (r', s')
  compare : compareLevels prev r' = .ok prev'
  done : InLevel t i r' []
  bytes_eq : prev'.bytesMissingChunks = r'.bytesMissingChunks
  missing_le : prev'.numMissingChunks ≤ r'.numMissingChunks

theorem exists_round (ht : ReceivedTree cfg t) (cb : σ → Sha1Name → Bool × σ) {prev : Previous} (s : σ) (hi : i < t.numLevels)
    (h : Before t prev r i) : ∃ asked r₁ r' s' prev', Round cfg t cb i prev r s asked r₁ r' s' prev' := by
  have hround : ∀ asked r₁, resolveOneLevel cfg t i r = .ok (r₁, asked) → InLevel t i r₁ asked →
      r₁.bytesMissingChunks = r.bytesMissingChunks → r.bytesMissingChunks ≤ prev.bytesMissingChunks →
      (∀ r', InLevel t i r' [] → (∀ k, k ∉ asked → r'.chunkState k = r₁.chunkState k) →
        r'.bytesMissingChunks ≤ r.bytesMissingChunks → r'.bytesMissingChunks = prev.bytesMissingChunks →
          prev.numMissingChunks ≤ r'.numMissingChunks) →
      ∃ asked r₁ r' s' prev', Round cfg t cb i prev r s asked r₁ r' s' prev' := by
    intro asked r₁ henter hin hsame hprev hmore
    obtain ⟨r', s', hlookup, hdone, hle, hframe⟩ := lookupChunks_eq ht cb s hin
    rcases Int.lt_or_eq_of_le (hle.trans (hsame.le.trans hprev)) with hless | hequal
    · refine ⟨asked, r₁, r', s', ⟨r'.numMissingChunks, r'.bytesMissingChunks⟩, henter, hin, hlookup, ?_, hdone, rfl, le_refl _⟩
      rw [compareLevels, if_pos hless]
    · have hmissing := hmore r' hdone hframe (hle.trans hsame.le) hequal
      refine ⟨asked, r₁, r', s', prev, henter, hin, hlookup, ?_, hdone, hequal.symm, hmissing⟩
      rw [compareLevels, if_neg (by omega), if_pos hequal.symm, check_of hmissing, ok_bind]
      rfl
  cases i with
  | zero =>
      obtain ⟨hlow, hbytes, hhits, hanswers, hless⟩ := h
      obtain ⟨r₁, asked, henter, hin, hsame⟩ := enter_root ht hlow hbytes hhits hanswers
      refine hround asked r₁ henter hin hsame hless.le ?_
      intro r' _ _ hle hequal
      exact absurd (hequal.ge.trans hle) (by omega)
  | succ i =>
      obtain ⟨hin, -, hbytes, hmissing⟩ := h
      obtain ⟨r₁, asked, henter, ⟨hin₁, hsame⟩, hframe⟩ := hin.enter ht hi
      refine hround asked r₁ henter hin₁ hsame hbytes.ge ?_
      intro r' hdone hframe' _ hequal
      refine hmissing.trans (hin.missing_le ht hdone ?_ (hequal.trans hbytes))
      intro k hk
      rw [hframe' k fun hmem => hk (hin₁.pending_mem k hmem).1, hframe k hk]

/-- A round that misses something goes on to the level below. -/
theorem Round.before {cb : σ → Sha1Name → Bool × σ} {prev prev' : Previous} {s s' : σ} {r₁ : Lookup}
    (h : Round cfg t cb i prev r s asked r₁ r' s' prev') (hmiss : r'.numMissingChunks ≠ 0) : Before t prev' r' (i + 1) :=
  ⟨h.done, hmiss, h.bytes_eq, h.missing_le⟩

theorem Round.lookupLevels_eq {cb : σ → Sha1Name → Bool × σ} {prev prev' : Previous} {s s' : σ} {r₁ : Lookup}
    (h : Round cfg t cb i prev r s asked r₁ r' s' prev') (n : Nat) :
    lookupLevels cfg t cb (n + 1) i prev r s =
      if r'.numMissingChunks = 0 then .ok ((r', s'), prev') else lookupLevels cfg t cb n (i + 1) prev' r' s' := by
  rw [lookupLevels, h.enter, ok_bind]
  dsimp only
  rw [h.lookup, ok_bind, h.compare, ok_bind]
  dsimp only
  split
  case isTrue hzero =>
    rw [check_of (h.done.missing_iff.mpr ⟨hzero, rfl⟩), ok_bind]
    rfl
  case isFalse => rfl

/-- The loop over the levels ends with a level that misses nothing or with the last one. -/
theorem lookupLevels_eq (ht : ReceivedTree cfg t) (cb : σ → Sha1Name → Bool × σ) (prev : Previous) (s : σ) {n : Nat}
    (hn : i + (n + 1) = t.numLevels) (h : Before t prev r i) :
    ∃ r' s' prev' low, lookupLevels cfg t cb (n + 1) i prev r s = .ok ((r', s'), prev') ∧ InLevel t low r' [] ∧
      (r'.numMissingChunks = 0 ∨ low + 1 = t.numLevels) ∧ prev'.bytesMissingChunks = r'.bytesMissingChunks ∧
      prev'.numMissingChunks ≤ r'.numMissingChunks := by
  induction n generalizing i r prev s with
  | zero =>
      obtain ⟨asked, r₁, r', s', prev', hround⟩ := exists_round ht cb s (by omega) h
      refine ⟨r', s', prev', i, ?_, hround.done, .inr hn, hround.bytes_eq, hround.missing_le⟩
      rw [hround.lookupLevels_eq]
      split <;> rfl
  | succ n ih =>
      obtain ⟨asked, r₁, r', s', prev', hround⟩ := exists_round ht cb s (by omega) h
      rw [hround.lookupLevels_eq]
      by_cases hzero : r'.numMissingChunks = 0
      · exact ⟨r', s', prev', i, if_pos hzero, hround.done, .inl hzero, hround.bytes_eq, hround.missing_le⟩
      · rw [if_neg hzero]
        exact ih prev' s' (by omega) (hround.before hzero)

theorem resolveMRCTreeInMemory_eq (ht : ReceivedTree cfg t) (hsize : lenOf t.pNames 0 < 2 ^ 30) (cb : σ → Sha1Name → Bool × σ)
    (r : Lookup) (s : σ) :
    ∃ r' s' low, resolveMRCTreeInMemory cfg t cb r s = .ok (r', s') ∧ InLevel t low r' [] ∧
      (r'.numMissingChunks = 0 ∨ low + 1 = t.numLevels) := by
  have hroot := ht.root_pos
  have hlevels := ht.levels_pos
  have hlen : (t.pNames 0).length = lenOf t.pNames 0 := rfl
  have hdouble : (BitVec.ofInt 32 ((t.pNames 0).length * 2)).toInt = (t.pNames 0).length * 2 := by
    rw [BitVec.toInt_ofInt]
    refine Int.bmod_eq_of_le ?_ ?_ <;> omega
  obtain ⟨n, hn⟩ := Nat.exists_eq_add_one.mpr hlevels
  obtain ⟨r', s', prev', low, hrun, hdone, hstop, hbytes, hmissing⟩ := lookupLevels_eq
    (r :=
      { r with
        bytesMissingChunks := (t.pNames 0).length
        numMissingChunks := 0
        lowLevel := 0
        numLocalHits := 0
        numLocalMisses := 0
        bytesHits := 0 })
    ht cb ⟨0, (t.pNames 0).length * 2⟩ s (show 0 + (n + 1) = t.numLevels by omega)
      ⟨rfl, rfl, rfl, rfl, show ((t.pNames 0).length : Int) < (t.pNames 0).length * 2 by omega⟩
  refine ⟨r', s', low, ?_, hdone, hstop⟩
  have hiff := hdone.missing_iff
  have hnonneg := hdone.bytes_nonneg
  have hhits : r'.bytesHits + r'.bytesMissingChunks = (t.pNames 0).length := hdone.hits
  unfold resolveMRCTreeInMemory
  dsimp only
  rw [hdouble, check_of (by omega), ok_bind, check_of (by omega), ok_bind, hn, hrun, ok_bind]
  dsimp only
  rw [check_of hnonneg, ok_bind, check_of hbytes.symm, ok_bind, check_of hmissing, ok_bind, check_of ?_, ok_bind,
    check_of hhits, ok_bind]
  · rfl
  · intro hpos
    by_contra hzero
    exact hpos.ne' (hiff.mpr ⟨by omega, rfl⟩)

end Memory

/-! ## On disk -/

section Disk

variable {cfg : Config} {t : ChunkTreeInfo} {cached : Sha1Name → Bool} {r r' m : Lookup} {i k : Nat} {asked : List Nat}

/-- The fields after the answer for the chunk `k`. -/
def reply (t : ChunkTreeInfo) (cached : Sha1Name → Bool) (r : Lookup) (k : Nat) : Lookup :=
  answered t (cached (t.pNames k).sha1name) k r

/-- Two answers can come in either order. -/
theorem reply_comm (r : Lookup) (j k : Nat) : reply t cached (reply t cached r j) k = reply t cached (reply t cached r k) j := by
  by_cases hjk : j = k
  · rw [hjk]
  · have hstate : ∀ a b : Bool, update (update r.chunkState j a) k b =
        update (update r.chunkState k b) j a := fun a b => update_comm hjk a b r.chunkState
    unfold reply
    cases cached (t.pNames j).sha1name <;> cases cached (t.pNames k).sha1name <;>
      refine Lookup.ext ?_ rfl rfl rfl ?_ ?_ ?_ ?_ ?_ <;>
      simp only [answered, Lookup.setState, if_true, Bool.false_eq_true, if_false, hstate] <;> omega

/-- The answers of a level lead to the same fields in any order. -/
theorem replies_perm {asked' : List Nat} (h : asked.Perm asked') (r : Lookup) :
    asked.foldl (reply t cached) r = asked'.foldl (reply t cached) r :=
  h.foldl_eq' (fun j _ k _ r => reply_comm r j k) r

/-- From the end of level `i` with the fields `r`, the lookup of the other levels ends with `m`. -/
inductive Ends (cfg : Config) (t : ChunkTreeInfo) (cached : Sha1Name → Bool) : Nat → Lookup → Lookup → Prop
  | stop {i : Nat} {r : Lookup} : r.numMissingChunks = 0 ∨ i + 1 = t.numLevels → Ends cfg t cached i r r
  | down {i : Nat} {r r' m : Lookup} {asked : List Nat} : r.numMissingChunks ≠ 0 → i + 1 < t.numLevels →
      resolveOneLevel cfg t (i + 1) r = .ok (r', asked) → Ends cfg t cached (i + 1) (asked.foldl (reply t cached) r') m →
      Ends cfg t cached i r m

/-- The callback of a cache that holds fixed names. -/
def lookIn (cached : Sha1Name → Bool) : Unit → Sha1Name → Bool × Unit := fun s sha1name => (cached sha1name, s)

theorem lookupChunks_lookIn (ht : ReceivedTree cfg t) (h : InLevel t i r asked) :
    lookupChunks t (lookIn cached) asked r () = .ok (asked.foldl (reply t cached) r, ()) := by
  induction asked generalizing r with
  | nil => rw [lookupChunks, if_neg (by rw [h.unresolved]; exact Nat.lt_irrefl 0), List.foldl_nil]
  | cons k asked ih =>
      obtain ⟨hupdate, hnext⟩ := h.answer ht List.mem_cons_self (cached (t.pNames k).sha1name)
      rw [List.erase_cons_head] at hnext
      rw [lookupChunks, if_pos (by rw [h.unresolved]; exact Nat.succ_pos _)]
      dsimp only [lookIn]
      rw [hupdate, ok_bind, List.foldl_cons]
      exact ih hnext

theorem lookupLevels_ends (ht : ReceivedTree cfg t) (prev : Previous) {prev' : Previous} {n : Nat} (hn : i + (n + 1) = t.numLevels)
    (h : Before t prev r i) (hrun : lookupLevels cfg t (lookIn cached) (n + 1) i prev r () = .ok ((m, ()), prev')) :
    ∃ r₁ asked, resolveOneLevel cfg t i r = .ok (r₁, asked) ∧ Ends cfg t cached i (asked.foldl (reply t cached) r₁) m := by
  obtain ⟨asked, r₁, r', s', prev'', hround⟩ := exists_round ht (lookIn cached) () (by omega) h
  refine ⟨r₁, asked, hround.enter, ?_⟩
  have hsame := hround.lookup.symm.trans (lookupChunks_lookIn ht hround.inLevel)
  obtain ⟨rfl, -⟩ := Prod.mk.inj (Except.ok.inj hsame)
  rw [hround.lookupLevels_eq] at hrun
  induction n generalizing i prev prev'' r r₁ asked with
  | zero =>
      have hend : asked.foldl (reply t cached) r₁ = m := by
        split at hrun
        · exact congrArg (fun out => out.1.1) (Except.ok.inj hrun)
        · exact congrArg (fun out => out.1.1) (Except.ok.inj hrun)
      exact hend ▸ .stop (.inr hn)
  | succ n ih =>
      split at hrun
      case isTrue hzero =>
        have hend : asked.foldl (reply t cached) r₁ = m := congrArg (fun out => out.1.1) (Except.ok.inj hrun)
        exact hend ▸ .stop (.inl hzero)
      case isFalse hmiss =>
        obtain ⟨asked', r₂, r₃, s'', prev₃, hnext⟩ := exists_round ht (lookIn cached) s' (by omega) (hround.before hmiss)
        have hsame' := hnext.lookup.symm.trans (lookupChunks_lookIn ht hnext.inLevel)
        obtain ⟨rfl, -⟩ := Prod.mk.inj (Except.ok.inj hsame')
        rw [hnext.lookupLevels_eq] at hrun
        exact .down hmiss (by omega) hnext.enter
          (ih prev'' (by omega) (hround.before hmiss) asked' r₂ prev₃ hrun hnext hsame')

/-- A lookup on disk that leads to the fields `m`. -/
inductive Leads (cfg : Config) (t : ChunkTreeInfo) (cached : Sha1Name → Bool) (m : Lookup) (d : DiskLookup) : Prop
  /-- Some requests of a level are answered, in whatever order. -/
  | waiting (i : Nat) (r : Lookup) (asked done : List Nat) : InLevel t i d.fields d.pending → d.pending ≠ [] → d.complete = false →
      (done ++ d.pending).Perm asked → d.fields = done.foldl (reply t cached) r →
      Ends cfg t cached i (asked.foldl (reply t cached) r) m → Leads cfg t cached m d
  | complete : d.pending = [] → d.complete = true → d.fields = m → Leads cfg t cached m d

/-- The levels from `i` on, as `goDown` takes them. -/
def downFrom (t : ChunkTreeInfo) (i : Nat) : List Nat := List.range' i (t.numLevels - i)

theorem resolveOneLevelDisk_eq {d : DiskLookup} (hpending : d.pending = [])
    (henter : resolveOneLevel cfg t i d.fields = .ok (r, asked)) (hin : InLevel t i r asked) :
    resolveOneLevelDisk cfg t i d = .ok ({ d with fields := r, pending := asked }, decide (asked.length = 0)) := by
  rw [resolveOneLevelDisk, henter, ok_bind]
  dsimp only
  rw [hpending, hin.unresolved, List.take_length, List.nil_append]
  rfl

/-- Levels without lookups are passed; with bytes missing they miss chunks too. -/
theorem goDown_leads (ht : ReceivedTree cfg t) {d : DiskLookup} (hpending : d.pending = []) (hcomplete : d.complete = false)
    (henter : resolveOneLevel cfg t i d.fields = .ok (r, asked)) (hin : InLevel t i r asked) (hmiss : 0 < r.bytesMissingChunks)
    (hends : Ends cfg t cached i (asked.foldl (reply t cached) r) m) :
    ∃ d', goDown cfg t (downFrom t i) d = .ok d' ∧ Leads cfg t cached m d' := by
  obtain ⟨n, hn⟩ := Nat.exists_eq_add_of_lt hin.level_lt
  induction n generalizing i d r asked with
  | zero =>
      have hlist : downFrom t i = [i] := by
        rw [downFrom, show t.numLevels - i = 1 by omega]
        rfl
      rw [hlist, goDown, resolveOneLevelDisk_eq hpending henter hin, ok_bind]
      dsimp only
      by_cases hnone : asked = []
      · subst hnone
        have hlast : r = m := by
          cases hends with
          | stop _ => rfl
          | down _ hlt _ _ => omega
        rw [if_pos (by simp)]
        exact ⟨_, rfl, .complete rfl rfl hlast⟩
      · rw [if_neg (by simpa using hnone)]
        exact ⟨_, rfl, .waiting i r asked [] hin hnone hcomplete (List.Perm.refl _) rfl hends⟩
  | succ n ih =>
      have hlist : downFrom t i = i :: downFrom t (i + 1) := by
        rw [downFrom, downFrom, show t.numLevels - i = (t.numLevels - (i + 1)) + 1 by omega, List.range'_succ]
      rw [hlist, goDown, resolveOneLevelDisk_eq hpending henter hin, ok_bind]
      dsimp only
      by_cases hnone : asked = []
      · subst hnone
        have hmissing : r.numMissingChunks ≠ 0 := fun hzero => hmiss.ne' (hin.missing_iff.mpr ⟨hzero, rfl⟩)
        rw [if_pos (by simp)]
        cases hends with
        | stop hstop => exact absurd hstop (by simp only [List.foldl_nil]; omega)
        | down _ hlt hnext hrest =>
            obtain ⟨r₁, asked₁, hrun, ⟨hin₁, hsame⟩, -⟩ := hin.enter ht hlt
            obtain ⟨rfl, rfl⟩ := Prod.mk.inj (Except.ok.inj (hrun.symm.trans hnext))
            exact ih rfl hcomplete hnext hin₁ (hsame ▸ hmiss) hrest (by omega)
      · rw [if_neg (by simpa using hnone)]
        exact ⟨_, rfl, .waiting i r asked [] hin hnone hcomplete (List.Perm.refl _) rfl hends⟩

theorem Leads.answer (ht : ReceivedTree cfg t) {d : DiskLookup} (h : Leads cfg t cached m d) (hk : k ∈ d.pending) :
    ∃ d', postProcessNameTreeDelivery cfg t (cached (t.pNames k).sha1name) k d = .ok d' ∧ Leads cfg t cached m d' := by
  cases h with
  | complete hpending _ _ => exact absurd hk (hpending ▸ List.not_mem_nil)
  | waiting i r asked done hin hne hcomplete hperm hfields hends =>
      obtain ⟨hupdate, hnext⟩ := hin.answer ht hk (cached (t.pNames k).sha1name)
      have hreply : answered t (cached (t.pNames k).sha1name) k d.fields = (done ++ [k]).foldl (reply t cached) r := by
        rw [List.foldl_append, ← hfields]
        rfl
      have hperm' : ((done ++ [k]) ++ d.pending.erase k).Perm asked := by
        rw [List.append_assoc]
        exact ((List.perm_cons_erase hk).symm.append_left done).trans hperm
      unfold postProcessNameTreeDelivery
      rw [hupdate, ok_bind]
      dsimp only
      rw [hnext.unresolved]
      by_cases hleft : 0 < (d.pending.erase k).length
      · rw [if_pos hleft]
        exact ⟨_, rfl, .waiting i r asked (done ++ [k]) hnext (List.ne_nil_of_length_pos hleft) hcomplete hperm' hreply hends⟩
      · have hnone : d.pending.erase k = [] := List.eq_nil_of_length_eq_zero (by omega)
        rw [hnone] at hnext hperm'
        rw [List.append_nil] at hperm'
        have hend : Ends cfg t cached i (answered t (cached (t.pNames k).sha1name) k d.fields) m := by
          rw [hreply, replies_perm hperm']
          exact hends
        have hiff := hnext.missing_iff
        rw [if_neg hleft]
        by_cases hzero : (answered t (cached (t.pNames k).sha1name) k d.fields).numMissingChunks = 0
        · rw [if_pos hzero, check_of (hiff.mpr ⟨hzero, rfl⟩), ok_bind]
          refine ⟨_, rfl, .complete hnone rfl ?_⟩
          cases hend with
          | stop _ => rfl
          | down hmiss _ _ _ => exact absurd hzero hmiss
        · have hnonneg := hnext.bytes_nonneg
          have hmiss : 0 < (answered t (cached (t.pNames k).sha1name) k d.fields).bytesMissingChunks := by
            have hne : (answered t (cached (t.pNames k).sha1name) k d.fields).bytesMissingChunks ≠ 0 :=
              fun hbytes => hzero (hiff.mp hbytes).1
            omega
          rw [if_neg hzero, check_of hmiss, ok_bind, hnext.cur, hnone]
          cases hend with
          | stop hstop =>
              have hlast := hstop.resolve_left hzero
              have hempty : t.numLevels - (i + 1) = 0 := by omega
              rw [hempty]
              exact ⟨_, rfl, .complete rfl rfl rfl⟩
          | down _ hlt hrun hrest =>
              obtain ⟨r₁, asked₁, henter, ⟨hin₁, hsame⟩, -⟩ := hnext.enter ht hlt
              obtain ⟨rfl, rfl⟩ := Prod.mk.inj (Except.ok.inj (henter.symm.trans hrun))
              exact goDown_leads ht rfl hcomplete henter hin₁ (hsame ▸ hmiss) hrest

/-- The fields both lookups start from. -/
def rootLookup (t : ChunkTreeInfo) : Lookup := { initLookup with bytesMissingChunks := (t.pNames 0).length }

theorem processNameTreeDelivery_leads (ht : ReceivedTree cfg t)
    (henter : resolveOneLevel cfg t 0 (rootLookup t) = .ok (r, asked))
    (hends : Ends cfg t cached 0 (asked.foldl (reply t cached) r) m) :
    ∃ d, processNameTreeDelivery cfg t = .ok d ∧ Leads cfg t cached m d := by
  have hroot : (0 : Int) < (t.pNames 0).length := Int.natCast_pos.mpr ht.root_pos
  obtain ⟨r', asked', hrun, hin, hsame⟩ := enter_root (r := rootLookup t) ht rfl rfl rfl rfl
  obtain ⟨rfl, rfl⟩ := Prod.mk.inj (Except.ok.inj (hrun.symm.trans henter))
  obtain ⟨d, hd, hleads⟩ := goDown_leads (d := ⟨rootLookup t, [], false⟩) ht rfl rfl henter hin (hsame ▸ hroot) hends
  refine ⟨d, ?_, hleads⟩
  unfold processNameTreeDelivery
  dsimp only
  rw [check_of hroot, ok_bind, List.range_eq_range']
  exact hd

/-- The answers that came. -/
def Lookup.answers (r : Lookup) : Nat := r.numLocalHits + r.numLocalMisses

theorem updateLookupResult_answers {isHit : Bool} (h : updateLookupResult t isHit k r = .ok r') : r'.answers = r.answers + 1 := by
  unfold updateLookupResult at h
  obtain ⟨_, -, h⟩ := bind_eq_ok.mp h
  cases isHit with
  | true =>
      obtain ⟨_, -, hret⟩ := bind_eq_ok.mp h
      rw [← Except.ok.inj hret]
      exact Nat.add_right_comm _ _ _
  | false =>
      rw [← Except.ok.inj h]
      rfl

theorem resolveOneLevel_answers (ht : ReceivedTree cfg t) (hi : i < t.numLevels)
    (h : resolveOneLevel cfg t i r = .ok (r', asked)) : r'.answers = r.answers := by
  obtain ⟨r₁, asked₁, hrun, hentered⟩ := resolveOneLevel_entered ht hi r
  obtain ⟨rfl, rfl⟩ := Prod.mk.inj (Except.ok.inj (h.symm.trans hrun))
  rw [hentered.others]
  rfl

theorem goDown_answers (ht : ReceivedTree cfg t) {levels : List Nat} {d d' : DiskLookup} (hlevels : ∀ level ∈ levels, level < t.numLevels)
    (h : goDown cfg t levels d = .ok d') : d'.fields.answers = d.fields.answers := by
  induction levels generalizing d with
  | nil =>
      rw [← Except.ok.inj h]
  | cons level rest ih =>
      obtain ⟨hlevel, hrest⟩ := List.forall_mem_cons.mp hlevels
      obtain ⟨⟨d₁, complete⟩, hone, h⟩ := bind_eq_ok.mp h
      obtain ⟨⟨r, asked⟩, hrun, hret⟩ := bind_eq_ok.mp hone
      obtain ⟨hd₁, -⟩ := Prod.mk.inj (Except.ok.inj hret)
      have hsame : d₁.fields.answers = d.fields.answers := by
        rw [← resolveOneLevel_answers ht hlevel hrun, ← hd₁]
      dsimp only at h
      split at h
      · rw [ih hrest h, hsame]
      · rw [← Except.ok.inj h, hsame]

theorem postProcess_answers (ht : ReceivedTree cfg t) {isHit : Bool} {d d' : DiskLookup}
    (h : postProcessNameTreeDelivery cfg t isHit k d = .ok d') : d'.fields.answers = d.fields.answers + 1 := by
  unfold postProcessNameTreeDelivery at h
  obtain ⟨r, hupdate, h⟩ := bind_eq_ok.mp h
  rw [← updateLookupResult_answers hupdate]
  dsimp only at h
  split at h
  · rw [← Except.ok.inj h]
  · split at h
    · obtain ⟨_, -, hret⟩ := bind_eq_ok.mp h
      rw [← Except.ok.inj hret]
    · obtain ⟨_, -, hdown⟩ := bind_eq_ok.mp h
      rw [goDown_answers ht (fun level hlevel => ?_) hdown]
      rw [List.mem_range'_1] at hlevel
      omega

theorem runs_answers (ht : ReceivedTree cfg t) {ks : List Nat} {d : DiskLookup} (hrun : (diskSystem cfg t cached).Runs ks d) :
    d.fields.answers = ks.length := by
  induction hrun with
  | start hinit =>
      obtain ⟨_, -, hdown⟩ := bind_eq_ok.mp hinit
      rw [goDown_answers ht (fun level hlevel => List.mem_range.mp hlevel) hdown]
      rfl
  | step _ hstep ih => rw [postProcess_answers ht hstep.2, ih, List.length_append, List.length_singleton]

theorem Leads.answers_le (ht : ReceivedTree cfg t) {low : Nat} (hm : InLevel t low m []) {d : DiskLookup} (h : Leads cfg t cached m d) :
    d.fields.answers ≤ t.numNames := by
  have hbound : ∀ {i r pending}, InLevel t i r pending → r.answers ≤ t.numNames := by
    intro i r pending hin
    have := hin.answers
    have := ht.bounds i hin.level_lt
    unfold Lookup.answers
    omega
  cases h with
  | waiting _ _ _ _ hin _ _ _ _ _ => exact hbound hin
  | complete _ _ hfields => exact hfields ▸ hbound hm

end Disk

/-- Looking a tree up on disk ends with the fields that the lookup in memory ends with, whatever the order of the answers is. No
assertion fails on the way, each state either waits for answers or is complete, and the answers are no more than the chunks. -/
theorem disk_agrees_with_memory {cfg : Config} {t : ChunkTreeInfo} (ht : ReceivedTree cfg t) (hsize : lenOf t.pNames 0 < 2 ^ 30)
    (cached : Sha1Name → Bool) :
    ∃ m, resolveMRCTreeInMemory cfg t (lookIn cached) initLookup () = .ok (m, ()) ∧
      (∃ d, (diskSystem cfg t cached).Runs [] d) ∧
      ∀ ks d, (diskSystem cfg t cached).Runs ks d →
        ks.length ≤ t.numNames ∧
        (∀ k ∈ d.pending, ∃ d', (diskSystem cfg t cached).Runs (ks ++ [k]) d') ∧
        (d.pending = [] ↔ d.complete = true) ∧
        (d.complete = true → d.fields = m) := by
  obtain ⟨m, ⟨⟩, low, hrun, hm, -⟩ := resolveMRCTreeInMemory_eq ht hsize (lookIn cached) initLookup ()
  refine ⟨m, hrun, ?_⟩
  obtain ⟨r, asked, henter, hends⟩ : ∃ r asked, resolveOneLevel cfg t 0 (rootLookup t) = .ok (r, asked) ∧
      Ends cfg t cached 0 (asked.foldl (reply t cached) r) m := by
    have hlevels := ht.levels_pos
    unfold resolveMRCTreeInMemory at hrun
    obtain ⟨_, hless, hrun⟩ := bind_eq_ok.mp hrun
    obtain ⟨_, -, hrun⟩ := bind_eq_ok.mp hrun
    obtain ⟨⟨⟨r', ⟨⟩⟩, prev'⟩, hloop, hrun⟩ := bind_eq_ok.mp hrun
    obtain ⟨_, -, hrun⟩ := bind_eq_ok.mp hrun
    obtain ⟨_, -, hrun⟩ := bind_eq_ok.mp hrun
    obtain ⟨_, -, hrun⟩ := bind_eq_ok.mp hrun
    obtain ⟨_, -, hrun⟩ := bind_eq_ok.mp hrun
    obtain ⟨_, -, hret⟩ := bind_eq_ok.mp hrun
    obtain ⟨rfl, -⟩ := Prod.mk.inj (Except.ok.inj hret)
    obtain ⟨n, hn⟩ := Nat.exists_eq_add_one.mpr hlevels
    rw [hn] at hloop
    have hless' := check_eq_ok.mp hless
    exact lookupLevels_ends ht ⟨0, _⟩ (show 0 + (n + 1) = t.numLevels by omega) ⟨rfl, rfl, rfl, rfl, hless'⟩ hloop
  obtain ⟨d₀, hstart, hleads₀⟩ := processNameTreeDelivery_leads ht henter hends
  refine ⟨⟨d₀, .start hstart⟩, ?_⟩
  have hinv : (diskSystem cfg t cached).Invariant (Leads cfg t cached m) := by
    refine ⟨?_, ?_⟩
    · intro d hd
      exact Except.ok.inj (hstart.symm.trans hd) ▸ hleads₀
    · rintro d k d' hleads ⟨hk, hstep⟩
      obtain ⟨d₁, hd₁, hleads₁⟩ := hleads.answer ht hk
      exact Except.ok.inj (hd₁.symm.trans hstep) ▸ hleads₁
  intro ks d hd
  have hleads := hinv.holds hd
  refine ⟨?_, ?_, ?_, ?_⟩
  · rw [← runs_answers ht hd]
    exact hleads.answers_le ht hm
  · intro k hk
    obtain ⟨d', hstep, -⟩ := hleads.answer ht hk
    exact ⟨d', hd.step ⟨hk, hstep⟩⟩
  · cases hleads with
    | waiting _ _ _ _ _ hne hcomplete _ _ _ => simp [hne, hcomplete]
    | complete hpending hcomplete _ => simp [hpending, hcomplete]
  · intro hcomplete
    cases hleads with
    | waiting _ _ _ _ _ _ hnot _ _ _ => exact absurd hcomplete (by simp [hnot])
    | complete _ _ hfields => exact hfields

/-- A block of 64 bytes in chunks of 40 and 24. -/
def sampleReceived : ChunkTreeInfo where
  seqNo := 0
  numNames := 3
  numLevels := 2
  pNames := fun k =>
    { (default : OneChunkName) with
      length := if k = 0 then 64 else if k = 1 then 40 else 24
      sha1name := ⟨List.replicate 20 (BitVec.ofNat 8 k), by simp⟩
      index := k
      parentIdx := if k = 0 then none else some 0
      level := if k = 0 then 0 else 1 }
  perLevelInfo := [⟨1, 0⟩, ⟨2, 1⟩]

theorem sampleReceived_tree : ReceivedTree sampleConfig sampleReceived := by
  refine ⟨by decide, rfl, by decide, rfl, ?_, ?_, ?_, ?_, by decide⟩
  · intro i hi
    obtain rfl : i = 0 := by
      have : i + 1 < 2 := hi
      omega
    rfl
  · show ∀ i, i < 2 → _
    decide
  · show ∀ i, i < 2 → _
    decide
  · intro i hi
    obtain rfl : i = 0 := by
      have : i + 1 < 2 := hi
      omega
    exact ⟨by decide, by decide, by decide⟩

/-- A cache with the first half of the block. -/
def firstHalf (sha1name : Sha1Name) : Bool := sha1name = (sampleReceived.pNames 1).sha1name

theorem disk_agrees_with_memory_sample :
    ((resolveMRCTreeInMemory sampleConfig sampleReceived (lookIn firstHalf) initLookup ()).toOption.map fun out =>
      (out.1.numMissingChunks, out.1.bytesMissingChunks, out.1.lowLevel)) = some (1, 24, 1) ∧
    ∃ m, resolveMRCTreeInMemory sampleConfig sampleReceived (lookIn firstHalf) initLookup () = .ok (m, ()) ∧
      (∃ d, (diskSystem sampleConfig sampleReceived firstHalf).Runs [] d) ∧
      ∀ ks d, (diskSystem sampleConfig sampleReceived firstHalf).Runs ks d →
        ks.length ≤ sampleReceived.numNames ∧
        (∀ k ∈ d.pending, ∃ d', (diskSystem sampleConfig sampleReceived firstHalf).Runs (ks ++ [k]) d') ∧
        (d.pending = [] ↔ d.complete = true) ∧
        (d.complete = true → d.fields = m) :=
  ⟨by decide, disk_agrees_with_memory sampleReceived_tree (by decide) firstHalf⟩

end BeagleCache.TreeLookup

import BeagleCache.TreeLookup

/-! The list of names that makes up a block once its tree was looked up: the highest hits, and the leaves nothing above
which was hit. They stand on different levels; the comparison of the sort climbs to a common one. -/

namespace BeagleCache.ChunkNameList

open TreeLookup Run

/-! ## The code -/

section Code

variable (cfg : Config) (t : ChunkTreeInfo)

/-- The body of the loop of `GetChunkNameList2` for the entry `i`: whether it is added. -/
def isListed (chunkState : Nat → Bool) (i : Nat) : Run Bool := do
  let parent ← getParent2 t.pNames i
  let level := (t.pNames i).level
  if level + 1 = t.numLevels then
    if level = 0 then do
      -- the root alone
      check (t.numNames = 1)
      return true
    else if chunkState parent = false then return true
    else do
      check (chunkState i = true)
      return false
  else if chunkState parent = false then return chunkState i
  else if i = 0 then return true
  else do
    check (chunkState i = true)
    return false

/-- The loop of `GetChunkNameList2` for the `n` entries from `i` on, with what is in `resultArray` and the bytes of it. A root
without children returns at once; it is the whole block, so the loop ends there too. -/
def listNames (chunkState : Nat → Bool) : Nat → Nat → List Nat → Nat → Run (List Nat)
  | 0, _, result, _ => .ok result
  | n + 1, i, result, offset => do
      let listed ← isListed t chunkState i
      inBounds (listed = true → result.length < cfg.maxNames)
      let result := if listed then result ++ [i] else result
      let offset := if listed then offset + (t.pNames i).length else offset
      if offset = (t.pNames 0).length then return result
      else listNames chunkState n (i + 1) result offset

def getChunkNameList2 (chunkState : Nat → Bool) : Run (List Nat) := do
  let result ← listNames cfg t chunkState t.numNames 0 [] 0
  check (result.length ≤ t.numNames)
  return result

/-- The loop of `CompareChunkIndex` that climbs to a common level, of as many rounds as the levels differ by. -/
def alignLevels (names : NameTable) : Nat → Nat → Nat → Nat → Nat → Run (Nat × Nat)
  | 0, _, _, _, _ => .error .hang
  | fuel + 1, level1, index1, level2, index2 =>
      if level1 = level2 then .ok (index1, index2)
      else if level1 < level2 then do
        let index2 ← getParent2 names index2
        alignLevels names fuel level1 index1 (level2 - 1) index2
      else do
        let index1 ← getParent2 names index1
        alignLevels names fuel (level1 - 1) index1 level2 index2

/-- `CompareChunkIndex`. -/
def compareChunkIndex (names : NameTable) (index1 index2 : Nat) : Run Int := do
  let level1 := (names index1).level
  let level2 := (names index2).level
  check (index1 < cfg.maxNames)
  check (index2 < cfg.maxNames)
  check (level1 < cfg.maxLevel)
  check (level2 < cfg.maxLevel)
  let r ← alignLevels names (level1 + level2 + 1) level1 index1 level2 index2
  if r.1 < r.2 then return -1
  else if r.2 < r.1 then return 1
  else .error .assertion

/-- `qsort` with a comparison that can stop the process. Entries are strictly ordered, so how it sorts cannot be seen. -/
def insertEntry (compare : Nat → Nat → Run Int) (x : Nat) : List Nat → Run (List Nat)
  | [] => .ok [x]
  | y :: ys => do
      let c ← compare x y
      if c ≤ 0 then return x :: y :: ys
      else do
        let rest ← insertEntry compare x ys
        return y :: rest

def qsort (compare : Nat → Nat → Run Int) : List Nat → Run (List Nat)
  | [] => .ok []
  | x :: xs => do
      let sorted ← qsort compare xs
      insertEntry compare x sorted

/-- `MissingChunkPolicy`. -/
def missingChunkPolicy (chunkState : Nat → Bool) : Run (List Nat) := do
  let result ← getChunkNameList2 cfg t chunkState
  check (result.length ≤ cfg.maxNames)
  qsort (compareChunkIndex cfg t.pNames) result

end Code

/-! ## Ancestors -/

/-- The ancestor of an entry on level `m`. -/
def up (t : ChunkTreeInfo) (m k : Nat) : Nat := (parentOf t.pNames)^[(t.pNames k).level - m] k

section Ancestors

variable {cfg : Config} {t : ChunkTreeInfo} {i j m m' k k' : Nat}

theorem up_self (ht : ReceivedTree cfg t) (hi : i < t.numLevels) (hk : k ∈ t.level i) : up t i k = k := by
  rw [up, ht.level_eq i hi k hk, Nat.sub_self]
  rfl

theorem up_parent (ht : ReceivedTree cfg t) (hi : i + 1 < t.numLevels) (hk : k ∈ t.level (i + 1)) (hm : m ≤ i) :
    up t m k = up t m (parentOf t.pNames k) := by
  rw [up, up, ht.level_eq (i + 1) hi k hk, ht.level_eq i (by omega) _ (ht.parent_mem hi hk).2,
    show i + 1 - m = i - m + 1 by omega, Function.iterate_succ_apply]

theorem up_mem (ht : ReceivedTree cfg t) (hi : i < t.numLevels) (hk : k ∈ t.level i) (hm : m ≤ i) : up t m k ∈ t.level m := by
  induction i generalizing k with
  | zero =>
      obtain rfl : m = 0 := by omega
      rwa [up_self ht hi hk]
  | succ i ih =>
      rcases Nat.eq_or_lt_of_le hm with rfl | hlt
      · rwa [up_self ht hi hk]
      · rw [up_parent ht hi hk (by omega)]
        exact ih (by omega) (ht.parent_mem hi hk).2 (by omega)

theorem up_up (ht : ReceivedTree cfg t) (hi : i < t.numLevels) (hk : k ∈ t.level i) (hm : m ≤ m') (hm' : m' ≤ i) :
    up t m (up t m' k) = up t m k := by
  induction i generalizing k with
  | zero =>
      obtain rfl : m' = 0 := by omega
      rw [up_self ht hi hk]
  | succ i ih =>
      rcases Nat.eq_or_lt_of_le hm' with rfl | hlt
      · rw [up_self ht hi hk]
      · rw [up_parent ht hi hk (show m' ≤ i by omega), ih (by omega) (ht.parent_mem hi hk).2 (by omega),
          up_parent ht hi hk (by omega)]

theorem up_mono (ht : ReceivedTree cfg t) (hi : i < t.numLevels) (hk : k ∈ t.level i) (hk' : k' ∈ t.level i) (hle : k ≤ k')
    (hm : m ≤ i) : up t m k ≤ up t m k' := by
  induction i generalizing k k' with
  | zero =>
      obtain rfl : m = 0 := by omega
      rwa [up_self ht hi hk, up_self ht hi hk']
  | succ i ih =>
      rcases Nat.eq_or_lt_of_le hm with rfl | hlt
      · rwa [up_self ht hi hk, up_self ht hi hk']
      · rw [up_parent ht hi hk (by omega), up_parent ht hi hk' (by omega)]
        exact ih (by omega) (ht.parent_mem hi hk).2 (ht.parent_mem hi hk').2 ((ht.below i hi).mono k hk k' hk' hle) (by omega)

/-- The first stands before the second on the lower of their levels. -/
def Earlier (t : ChunkTreeInfo) (a b : Nat) : Prop :=
  up t (min (t.pNames a).level (t.pNames b).level) a < up t (min (t.pNames a).level (t.pNames b).level) b

theorem earlier_iff (ht : ReceivedTree cfg t) (hi : i < t.numLevels) (hj : j < t.numLevels) (hk : k ∈ t.level i) (hk' : k' ∈ t.level j) :
    Earlier t k k' ↔ up t (min i j) k < up t (min i j) k' := by
  rw [Earlier, ht.level_eq i hi k hk, ht.level_eq j hj k' hk']

/-- Ancestors on a level above both stand in the same order or are the same. -/
theorem up_le_of_earlier (ht : ReceivedTree cfg t) (hi : i < t.numLevels) (hj : j < t.numLevels) (hk : k ∈ t.level i)
    (hk' : k' ∈ t.level j) (h : Earlier t k k') (hmi : m ≤ i) (hmj : m ≤ j) : up t m k ≤ up t m k' := by
  rw [earlier_iff ht hi hj hk hk'] at h
  have hle : m ≤ min i j := le_min hmi hmj
  rw [← up_up ht hi hk hle (min_le_left i j), ← up_up ht hj hk' hle (min_le_right i j)]
  exact up_mono ht (by omega) (up_mem ht hi hk (min_le_left i j)) (up_mem ht hj hk' (min_le_right i j)) h.le hle

theorem earlier_of_up_lt (ht : ReceivedTree cfg t) (hi : i < t.numLevels) (hj : j < t.numLevels) (hk : k ∈ t.level i)
    (hk' : k' ∈ t.level j) (hmi : m ≤ i) (hmj : m ≤ j) (h : up t m k < up t m k') : Earlier t k k' := by
  rw [earlier_iff ht hi hj hk hk']
  by_contra hnot
  have hle : m ≤ min i j := le_min hmi hmj
  have hback := up_mono ht (by omega) (up_mem ht hj hk' (min_le_right i j)) (up_mem ht hi hk (min_le_left i j)) (Nat.not_lt.mp hnot) hle
  rw [up_up ht hi hk hle (min_le_left i j), up_up ht hj hk' hle (min_le_right i j)] at hback
  omega

end Ancestors

/-! ## Positions in the stream -/

section Positions

variable {cfg : Config} {t : ChunkTreeInfo} {i j m k k' : Nat}

/-- Where a chunk starts: behind the chunks before it on its level. -/
def streamOff (t : ChunkTreeInfo) (k : Nat) : Nat := bytesOf t.pNames (fun j => j < k) (t.level (t.pNames k).level)

theorem streamOff_end (ht : ReceivedTree cfg t) (hi : i < t.numLevels) (hk : k ∈ t.level i) :
    streamOff t k + lenOf t.pNames k = bytesOf t.pNames (fun j => j ≤ k) (t.level i) := by
  have hperm := List.perm_cons_erase hk
  have hothers : bytesOf t.pNames (fun j => j < k) ((t.level i).erase k) = bytesOf t.pNames (fun j => j ≤ k) ((t.level i).erase k) := by
    refine bytesOf_congr (fun _ _ => rfl) fun j hj => ?_
    have := ((List.Nodup.mem_erase_iff (t.nodup_level i)).mp hj).1
    omega
  rw [streamOff, ht.level_eq i hi k hk, bytesOf_perm hperm, bytesOf_perm hperm, bytesOf_cons, bytesOf_cons, if_neg (Nat.lt_irrefl k),
    if_pos (le_refl k), hothers]
  omega

theorem streamOff_parent (ht : ReceivedTree cfg t) (hi : i + 1 < t.numLevels) (hk : k ∈ t.level (i + 1)) :
    streamOff t (parentOf t.pNames k) ≤ streamOff t k ∧
      streamOff t k + lenOf t.pNames k ≤ streamOff t (parentOf t.pNames k) + lenOf t.pNames (parentOf t.pNames k) := by
  have hparent := (ht.parent_mem hi hk).2
  have hmono := (ht.below i hi).mono
  constructor
  · rw [streamOff, streamOff, ht.level_eq i (by omega) _ hparent, ht.level_eq (i + 1) hi k hk, ← ht.bytes_below hi]
    refine bytesOf_le fun j hj hlt => ?_
    by_contra hnot
    have := hmono k hk j hj (Nat.not_lt.mp hnot)
    omega
  · rw [streamOff_end ht hi hk, streamOff_end ht (by omega) hparent, ← ht.bytes_below hi]
    exact bytesOf_le fun j hj hle => hmono j hj k hk hle

theorem streamOff_up (ht : ReceivedTree cfg t) (hi : i < t.numLevels) (hk : k ∈ t.level i) (hm : m ≤ i) :
    streamOff t (up t m k) ≤ streamOff t k ∧
      streamOff t k + lenOf t.pNames k ≤ streamOff t (up t m k) + lenOf t.pNames (up t m k) := by
  induction i generalizing k with
  | zero =>
      obtain rfl : m = 0 := by omega
      rw [up_self ht hi hk]
      exact ⟨le_refl _, le_refl _⟩
  | succ i ih =>
      rcases Nat.eq_or_lt_of_le hm with rfl | hlt
      · rw [up_self ht hi hk]
        exact ⟨le_refl _, le_refl _⟩
      · rw [up_parent ht hi hk (by omega)]
        have hone := streamOff_parent ht hi hk
        have hrest := ih (by omega) (ht.parent_mem hi hk).2 (by omega)
        exact ⟨hrest.1.trans hone.1, hone.2.trans hrest.2⟩

theorem streamOff_le (ht : ReceivedTree cfg t) (hi : i < t.numLevels) (hk : k ∈ t.level i) :
    streamOff t k + lenOf t.pNames k ≤ lenOf t.pNames 0 := by
  have htop := up_mem ht hi hk (Nat.zero_le i)
  rw [ht.level_zero, List.mem_singleton] at htop
  have hinside := (streamOff_up ht hi hk (Nat.zero_le i)).2
  rw [htop] at hinside
  have hzero : (0 : Nat) ∈ t.level 0 := by
    rw [ht.level_zero]
    exact List.mem_cons_self
  have hstart := streamOff_end ht ht.levels_pos hzero
  rw [ht.level_zero, bytesOf_cons, if_pos (le_refl 0), bytesOf_nil, Nat.add_zero] at hstart
  omega

theorem streamOff_of_earlier (ht : ReceivedTree cfg t) (hi : i < t.numLevels) (hj : j < t.numLevels) (hk : k ∈ t.level i)
    (hk' : k' ∈ t.level j) (h : Earlier t k k') : streamOff t k + lenOf t.pNames k ≤ streamOff t k' := by
  rw [earlier_iff ht hi hj hk hk'] at h
  have hmin : min i j < t.numLevels := by omega
  have hup := up_mem ht hi hk (min_le_left i j)
  have hup' := up_mem ht hj hk' (min_le_right i j)
  calc streamOff t k + lenOf t.pNames k
      ≤ streamOff t (up t (min i j) k) + lenOf t.pNames (up t (min i j) k) := (streamOff_up ht hi hk (min_le_left i j)).2
    _ = bytesOf t.pNames (fun x => x ≤ up t (min i j) k) (t.level (min i j)) := streamOff_end ht hmin hup
    _ ≤ streamOff t (up t (min i j) k') := by
        rw [streamOff, ht.level_eq _ hmin _ hup']
        exact bytesOf_le fun x _ hx => lt_of_le_of_lt hx h
    _ ≤ streamOff t k' := (streamOff_up ht hj hk' (min_le_right i j)).1

end Positions

/-! ## The comparison -/

section Compare

variable {cfg : Config} {t : ChunkTreeInfo} {i j k k' : Nat}

theorem alignLevels_eq (ht : ReceivedTree cfg t) (fuel : Nat) (hi : i < t.numLevels) (hj : j < t.numLevels) (hk : k ∈ t.level i)
    (hk' : k' ∈ t.level j) (hfuel : i + j < fuel) :
    alignLevels t.pNames fuel i k j k' = .ok (up t (min i j) k, up t (min i j) k') := by
  induction fuel generalizing i j k k' with
  | zero => omega
  | succ fuel ih =>
      rw [alignLevels]
      rcases Nat.lt_trichotomy i j with hlt | rfl | hgt
      · obtain ⟨j, rfl⟩ : ∃ n, j = n + 1 := ⟨j - 1, by omega⟩
        rw [if_neg (by omega), if_pos hlt, ht.getParent2_eq hj hk', ok_bind, Nat.add_sub_cancel,
          ih hi (by omega) hk (ht.parent_mem hj hk').2 (by omega), show min i (j + 1) = min i j by omega,
          ← up_parent ht hj hk' (min_le_right i j)]
      · rw [if_pos rfl, min_self, up_self ht hi hk, up_self ht hi hk']
      · obtain ⟨i, rfl⟩ : ∃ n, i = n + 1 := ⟨i - 1, by omega⟩
        rw [if_neg (by omega), if_neg (by omega), ht.getParent2_eq hi hk, ok_bind, Nat.add_sub_cancel,
          ih (by omega) hj (ht.parent_mem hi hk).2 hk' (by omega), show min (i + 1) j = min i j by omega,
          ← up_parent ht hi hk (min_le_left i j)]

/-- The comparison stops the process exactly for an entry and its ancestor. -/
theorem compareChunkIndex_eq (ht : ReceivedTree cfg t) (hi : i < t.numLevels) (hj : j < t.numLevels) (hk : k ∈ t.level i)
    (hk' : k' ∈ t.level j) :
    compareChunkIndex cfg t.pNames k k' =
      if up t (min i j) k < up t (min i j) k' then .ok (-1)
      else if up t (min i j) k' < up t (min i j) k then .ok 1
      else .error .assertion := by
  have hnames := ht.names_le
  have hlevels := ht.levels_le
  have hkn := ht.lt_of_mem hi hk
  have hkn' := ht.lt_of_mem hj hk'
  unfold compareChunkIndex
  simp only [ht.level_eq i hi k hk, ht.level_eq j hj k' hk']
  rw [check_of (by omega), ok_bind, check_of (by omega), ok_bind, check_of (by omega), ok_bind, check_of (by omega),
    ok_bind, alignLevels_eq ht _ hi hj hk hk' (Nat.lt_succ_self _), ok_bind]
  rfl

theorem compare_earlier (ht : ReceivedTree cfg t) (hi : i < t.numLevels) (hj : j < t.numLevels) (hk : k ∈ t.level i)
    (hk' : k' ∈ t.level j) : compareChunkIndex cfg t.pNames k k' = .ok (-1) ↔ Earlier t k k' := by
  rw [compareChunkIndex_eq ht hi hj hk hk', earlier_iff ht hi hj hk hk']
  split
  case isTrue hlt => simp [hlt]
  case isFalse hge =>
    split <;> simp [hge]

theorem compare_later (ht : ReceivedTree cfg t) (hi : i < t.numLevels) (hj : j < t.numLevels) (hk : k ∈ t.level i)
    (hk' : k' ∈ t.level j) (h : Earlier t k' k) : compareChunkIndex cfg t.pNames k k' = .ok 1 := by
  rw [earlier_iff ht hj hi hk' hk, min_comm] at h
  rw [compareChunkIndex_eq ht hi hj hk hk', if_neg (by omega), if_pos h]

end Compare

/-! ## The list -/

/-- Nothing above the chunk is a hit, and it is one or a leaf. -/
def Listed (t : ChunkTreeInfo) (state : Nat → Bool) (k : Nat) : Prop :=
  (k = 0 ∨ state (parentOf t.pNames k) = false) ∧ (state k = true ∨ (t.pNames k).level + 1 = t.numLevels)

instance (t : ChunkTreeInfo) (state : Nat → Bool) : DecidablePred (Listed t state) := fun _ => inferInstanceAs (Decidable (_ ∧ _))

/-- Every entry is on some level. -/
def AllOnLevels (t : ChunkTreeInfo) : Prop := ∀ k, k < t.numNames → ∃ i, i < t.numLevels ∧ k ∈ t.level i

section List

variable {cfg : Config} {t : ChunkTreeInfo} {r : Lookup} {low i k : Nat}

/-- Behind the last entry of a level. -/
def levelEnd (t : ChunkTreeInfo) (i : Nat) : Nat := (t.perLevelInfo.getD i default).firstIndex + (t.perLevelInfo.getD i default).numNames

theorem levelEnd_zero (ht : ReceivedTree cfg t) : levelEnd t 0 = 1 := by
  rw [levelEnd, ht.root]
  rfl

theorem range_levelEnd (ht : ReceivedTree cfg t) (hi : i + 1 < t.numLevels) :
    List.range (levelEnd t (i + 1)) = List.range (levelEnd t i) ++ t.level (i + 1) := by
  have hfirst := ht.first_succ i hi
  rw [ChunkTreeInfo.level, MRCPerLevelInfo.range, hfirst, List.range_eq_range', List.range_eq_range', levelEnd, levelEnd, hfirst,
    ← List.range'_append_1, Nat.zero_add]

theorem exists_level (ht : ReceivedTree cfg t) (hi : i < t.numLevels) (hk : k < levelEnd t i) : ∃ j, j ≤ i ∧ k ∈ t.level j := by
  induction i with
  | zero =>
      rw [levelEnd_zero ht] at hk
      refine ⟨0, le_refl 0, ?_⟩
      rw [ht.level_zero, List.mem_singleton]
      omega
  | succ i ih =>
      have hmem : k ∈ List.range (levelEnd t (i + 1)) := List.mem_range.mpr hk
      rw [range_levelEnd ht hi, List.mem_append, List.mem_range] at hmem
      rcases hmem with hlt | hlevel
      · obtain ⟨j, hj, hkj⟩ := ih (by omega) hlt
        exact ⟨j, by omega, hkj⟩
      · exact ⟨i + 1, le_refl _, hlevel⟩

/-- The body of the loop passes its assertions on the levels that were looked up. -/
theorem isListed_eq (ht : ReceivedTree cfg t) (hall : AllOnLevels t) (hr : InLevel t low r []) (hi : i ≤ low) (hk : k ∈ t.level i) :
    isListed t r.chunkState k = .ok (decide (Listed t r.chunkState k)) := by
  have hlow := hr.level_lt
  have hlevel := ht.level_eq i (by omega) k hk
  unfold isListed
  cases i with
  | zero =>
      rw [ht.level_zero, List.mem_singleton] at hk
      subst hk
      have hparent : getParent2 t.pNames 0 = .ok 0 := rfl
      rw [hparent, ok_bind]
      dsimp only
      rw [hlevel]
      by_cases hleaf : 0 + 1 = t.numLevels
      · have hone : t.numNames = 1 := by
          have hpos := ht.lt_of_mem ht.levels_pos (show 0 ∈ t.level 0 by rw [ht.level_zero]; exact List.mem_singleton_self 0)
          obtain ⟨j, hj, hmem⟩ := hall (t.numNames - 1) (by omega)
          obtain rfl : j = 0 := by omega
          rw [ht.level_zero, List.mem_singleton] at hmem
          omega
        rw [if_pos hleaf, if_pos rfl, check_of hone, ok_bind]
        simp [Listed, hlevel, hleaf]
      · rw [if_neg hleaf]
        cases hstate : r.chunkState 0 <;> simp [Listed, hlevel, hstate]
        omega
  | succ i =>
      have hi' : i + 1 < t.numLevels := by omega
      have hpos := ht.pos_of_mem hi' hk
      have hinherits := hr.inherits i hi k hk
      rw [ht.getParent2_eq hi' hk, ok_bind]
      dsimp only
      rw [hlevel]
      cases hparent : r.chunkState (parentOf t.pNames k) with
      | false =>
          by_cases hleaf : i + 1 + 1 = t.numLevels
          · simp [Listed, hlevel, hleaf, hparent]
          · cases hstate : r.chunkState k <;> simp [Listed, hlevel, hleaf, hparent, hstate]
      | true =>
          have hstate := hinherits hparent
          by_cases hleaf : i + 1 + 1 = t.numLevels
          · simp [Listed, hlevel, hleaf, hparent, hstate, hpos.ne']
          · simp [Listed, hlevel, hleaf, hparent, hstate, hpos.ne']

theorem open_of_missing (ht : ReceivedTree cfg t) (hr : InLevel t low r []) (hi : i ≤ low) (hk : k ∈ t.level i)
    (hmiss : r.chunkState k = false) : k = 0 ∨ r.chunkState (parentOf t.pNames k) = false := by
  cases i with
  | zero =>
      rw [ht.level_zero, List.mem_singleton] at hk
      exact .inl hk
  | succ i =>
      refine .inr (Bool.eq_false_iff.mpr fun hparent => ?_)
      rw [hr.inherits i hi k hk hparent] at hmiss
      cases hmiss

/-- The bytes listed above a level and those of the chunks of the level under missing parents are the block. -/
theorem listed_above (ht : ReceivedTree cfg t) (hr : InLevel t low r []) (hi : i ≤ low) :
    bytesOf t.pNames (Listed t r.chunkState) (List.range (t.perLevelInfo.getD i default).firstIndex) +
      bytesOf t.pNames (fun k => k = 0 ∨ r.chunkState (parentOf t.pNames k) = false) (t.level i) = lenOf t.pNames 0 := by
  have hlow := hr.level_lt
  induction i with
  | zero =>
      rw [ht.level_zero, ht.root, bytesOf_cons, if_pos (.inl rfl)]
      exact Nat.zero_add _
  | succ i ih =>
      have hi' : i + 1 < t.numLevels := by omega
      have hrange : List.range (t.perLevelInfo.getD (i + 1) default).firstIndex =
          List.range (t.perLevelInfo.getD i default).firstIndex ++ t.level i := by
        rw [ht.first_succ i hi', ChunkTreeInfo.level, MRCPerLevelInfo.range, List.range_eq_range', List.range_eq_range',
          ← List.range'_append_1, Nat.zero_add]
      have hopen : bytesOf t.pNames (fun k => k = 0 ∨ r.chunkState (parentOf t.pNames k) = false) (t.level (i + 1)) =
          bytesOf t.pNames (fun k => r.chunkState k = false) (t.level i) := by
        rw [← ht.bytes_below hi']
        refine bytesOf_congr (fun _ _ => rfl) fun k hk => ?_
        have := ht.pos_of_mem hi' hk
        exact ⟨fun h => h.resolve_left (by omega), .inr⟩
      -- what is under missing parents is listed or missing
      have hsplit := bytesOf_filter t.pNames (fun k => k = 0 ∨ r.chunkState (parentOf t.pNames k) = false)
        (fun k => r.chunkState k = true) (t.level i)
      have hlisted : bytesOf t.pNames (fun k => (k = 0 ∨ r.chunkState (parentOf t.pNames k) = false) ∧ r.chunkState k = true) (t.level i) =
          bytesOf t.pNames (Listed t r.chunkState) (t.level i) := by
        refine bytesOf_congr (fun _ _ => rfl) fun k hk => and_congr_right fun _ => ?_
        rw [ht.level_eq i (by omega) k hk]
        exact ⟨.inl, fun h => h.resolve_right (by omega)⟩
      have hmissing : bytesOf t.pNames (fun k => k = 0 ∨ r.chunkState (parentOf t.pNames k) = false)
          ((t.level i).filter fun k => ¬ r.chunkState k = true) = bytesOf t.pNames (fun k => r.chunkState k = false) (t.level i) := by
        rw [bytesOf_of_filter]
        refine bytesOf_congr (fun _ _ => rfl) fun k hk => ⟨fun h => by simpa using h.2, fun hmiss => ⟨?_, by simpa using hmiss⟩⟩
        exact open_of_missing ht hr (by omega) hk hmiss
      have := ih (by omega)
      rw [hrange, bytesOf_append, hopen]
      omega

/-- When the lookup has ended, the listed chunks of the levels looked up are as long as the block. -/
theorem listed_bytes (ht : ReceivedTree cfg t) (hr : InLevel t low r []) (hstop : r.numMissingChunks = 0 ∨ low + 1 = t.numLevels) :
    bytesOf t.pNames (Listed t r.chunkState) (List.range (levelEnd t low)) = lenOf t.pNames 0 := by
  have hlow := hr.level_lt
  have habove := listed_above ht hr (le_refl low)
  have hrange : List.range (levelEnd t low) = List.range (t.perLevelInfo.getD low default).firstIndex ++ t.level low := by
    rw [ChunkTreeInfo.level, MRCPerLevelInfo.range, levelEnd, List.range_eq_range', List.range_eq_range', ← List.range'_append_1,
      Nat.zero_add]
  have hsame : bytesOf t.pNames (Listed t r.chunkState) (t.level low) =
      bytesOf t.pNames (fun k => k = 0 ∨ r.chunkState (parentOf t.pNames k) = false) (t.level low) := by
    refine bytesOf_congr (fun _ _ => rfl) fun k hk => ⟨And.left, fun hopen => ⟨hopen, ?_⟩⟩
    rcases hstop with hzero | hleaf
    · have hmissing := hr.missing
      rw [hzero] at hmissing
      have hnone := List.countP_eq_zero.mp hmissing.symm k hk
      exact .inl (by simpa using hnone)
    · rw [ht.level_eq low hlow k hk]
      exact .inr hleaf
  rw [hrange, bytesOf_append, hsame, habove]

/-- The loop ends on the levels that were looked up, as soon as it has the bytes of the block. -/
theorem listNames_eq (ht : ReceivedTree cfg t) (hall : AllOnLevels t) (hr : InLevel t low r [])
    (hstop : r.numMissingChunks = 0 ∨ low + 1 = t.numLevels) {n i : Nat} (hi : i ≤ levelEnd t low) (hn : i + n = t.numNames)
    (hmore : bytesOf t.pNames (Listed t r.chunkState) (List.range i) ≠ lenOf t.pNames 0) :
    ∃ j, j ≤ levelEnd t low ∧ bytesOf t.pNames (Listed t r.chunkState) (List.range j) = lenOf t.pNames 0 ∧
      listNames cfg t r.chunkState n i ((List.range i).filter (Listed t r.chunkState))
        (bytesOf t.pNames (Listed t r.chunkState) (List.range i)) = .ok ((List.range j).filter (Listed t r.chunkState)) := by
  have hend := ht.bounds low hr.level_lt
  have hbytes := listed_bytes ht hr hstop
  have hlt : i < levelEnd t low := by
    rcases Nat.eq_or_lt_of_le hi with heq | hlt
    · exact absurd (heq ▸ hbytes) hmore
    · exact hlt
  induction n generalizing i with
  | zero =>
      rw [levelEnd] at hlt
      omega
  | succ n ih =>
      obtain ⟨level, hlevel, hmem⟩ := exists_level ht hr.level_lt hlt
      have hnames := ht.names_le
      have hroom : decide (Listed t r.chunkState i) = true →
          ((List.range i).filter (Listed t r.chunkState)).length < cfg.maxNames := by
        intro _
        have hle := List.length_filter_le (fun k => decide (Listed t r.chunkState k)) (List.range i)
        rw [List.length_range] at hle
        omega
      have hresult : (if decide (Listed t r.chunkState i) = true then (List.range i).filter (Listed t r.chunkState) ++ [i]
          else (List.range i).filter (Listed t r.chunkState)) = (List.range (i + 1)).filter (Listed t r.chunkState) := by
        rw [List.range_succ, List.filter_append]
        by_cases hlisted : Listed t r.chunkState i <;> simp [hlisted]
      have hoffset : (if decide (Listed t r.chunkState i) = true then
            bytesOf t.pNames (Listed t r.chunkState) (List.range i) + (t.pNames i).length
          else bytesOf t.pNames (Listed t r.chunkState) (List.range i)) =
          bytesOf t.pNames (Listed t r.chunkState) (List.range (i + 1)) := by
        rw [List.range_succ, bytesOf_append, bytesOf_cons, bytesOf_nil]
        by_cases hlisted : Listed t r.chunkState i <;> simp [hlisted, lenOf]
      rw [listNames, isListed_eq ht hall hr hlevel hmem, ok_bind, inBounds_of hroom, ok_bind]
      dsimp only
      rw [hresult, hoffset]
      by_cases hdone : bytesOf t.pNames (Listed t r.chunkState) (List.range (i + 1)) = lenOf t.pNames 0
      · exact ⟨i + 1, hlt, hdone, if_pos hdone⟩
      · have hnext : ¬ bytesOf t.pNames (Listed t r.chunkState) (List.range (i + 1)) = (t.pNames 0).length := hdone
        rw [if_neg hnext]
        refine ih hlt (by omega) hdone ?_
        rcases Nat.eq_or_lt_of_le (show i + 1 ≤ levelEnd t low from hlt) with heq | hlt'
        · exact absurd (heq ▸ hbytes) hdone
        · exact hlt'

theorem not_above (ht : ReceivedTree cfg t) (hr : InLevel t low r []) {j k' : Nat} (hi : i ≤ low) (hj : j < i) (hk : k ∈ t.level i)
    (hlisted : Listed t r.chunkState k) (hk' : up t j k = k') : ¬ Listed t r.chunkState k' := by
  intro hlisted'
  have hlow := hr.level_lt
  have hmem' : k' ∈ t.level j := hk' ▸ up_mem ht (by omega) hk hj.le
  have hhit : r.chunkState k' = true := by
    have hlevel := ht.level_eq j (by omega) k' hmem'
    refine hlisted'.2.resolve_right ?_
    omega
  -- the hit reaches down to the parent
  have hdown : ∀ m, j ≤ m → m < i → r.chunkState (up t m k) = true := by
    intro m hjm hmi
    induction m, hjm using Nat.le_induction with
    | base => rwa [hk']
    | succ m hjm ih =>
        have hmem := up_mem ht (show i < t.numLevels by omega) hk hmi.le
        refine hr.inherits m (by omega) _ hmem ?_
        have hparent : parentOf t.pNames (up t (m + 1) k) = up t m k := by
          rw [← up_up ht (by omega) hk (Nat.le_succ m) hmi.le, up_parent ht (by omega) hmem (le_refl m),
            up_self ht (by omega) (ht.parent_mem (by omega) hmem).2]
        rw [hparent]
        exact ih (by omega)
  obtain ⟨n, rfl⟩ : ∃ n, i = n + 1 := ⟨i - 1, by omega⟩
  have hparent := hdown n (by omega) (Nat.lt_succ_self n)
  rw [up_parent ht (by omega) hk (le_refl n), up_self ht (by omega) (ht.parent_mem (by omega) hk).2] at hparent
  have hpos := ht.pos_of_mem (by omega) hk
  rw [hlisted.1.resolve_left (by omega)] at hparent
  cases hparent

end List

/-! ## The sort -/

section Sorting

variable {compare : Nat → Nat → Run Int} {R : Nat → Nat → Prop} {x : Nat} {l : List Nat}

/-- On the entries of `l` the comparison returns and decides a strict total order. -/
structure Orders (compare : Nat → Nat → Run Int) (R : Nat → Nat → Prop) (l : List Nat) : Prop where
  total : ∀ a ∈ l, ∀ b ∈ l, a ≠ b → (compare a b = .ok (-1) ∧ R a b) ∨ (compare a b = .ok 1 ∧ R b a)
  trans : ∀ a ∈ l, ∀ b ∈ l, ∀ c ∈ l, R a b → R b c → R a c

theorem Orders.sub {l' : List Nat} (h : Orders compare R l) (hsub : ∀ a ∈ l', a ∈ l) : Orders compare R l' :=
  ⟨fun a ha b hb => h.total a (hsub a ha) b (hsub b hb),
    fun a ha b hb c hc => h.trans a (hsub a ha) b (hsub b hb) c (hsub c hc)⟩

theorem insertEntry_eq (h : Orders compare R (x :: l)) (hx : x ∉ l) (hsorted : l.Pairwise R) :
    ∃ s, insertEntry compare x l = .ok s ∧ s.Perm (x :: l) ∧ s.Pairwise R := by
  induction l with
  | nil => exact ⟨[x], rfl, List.Perm.refl _, List.pairwise_singleton R x⟩
  | cons y l ih =>
      have hne : x ≠ y := fun heq => hx (heq ▸ List.mem_cons_self)
      have hyl := (List.pairwise_cons.mp hsorted).1
      rw [insertEntry]
      rcases h.total x (by simp) y (by simp) hne with ⟨hcompare, hxy⟩ | ⟨hcompare, hyx⟩
      · refine ⟨x :: y :: l, by rw [hcompare, ok_bind]; rfl, List.Perm.refl _, List.pairwise_cons.mpr ⟨?_, hsorted⟩⟩
        intro z hz
        rcases List.mem_cons.mp hz with rfl | hz
        · exact hxy
        · exact h.trans x (by simp) y (by simp) z (by simp [hz]) hxy (hyl z hz)
      · obtain ⟨s, hs, hperm, hpairwise⟩ := ih (h.sub (by simp; tauto)) (fun hmem => hx (List.mem_cons_of_mem y hmem))
          (List.pairwise_cons.mp hsorted).2
        refine ⟨y :: s, by rw [hcompare, ok_bind, if_neg (by omega), hs]; rfl, ?_, List.pairwise_cons.mpr ⟨?_, hpairwise⟩⟩
        · exact (hperm.cons y).trans (List.Perm.swap x y l)
        · intro z hz
          rcases List.mem_cons.mp (hperm.subset hz) with rfl | hz
          · exact hyx
          · exact hyl z hz

theorem qsort_eq (h : Orders compare R l) (hnodup : l.Nodup) :
    ∃ s, qsort compare l = .ok s ∧ s.Perm l ∧ s.Pairwise R := by
  induction l with
  | nil => exact ⟨[], rfl, List.Perm.refl _, List.Pairwise.nil⟩
  | cons x l ih =>
      obtain ⟨hx, hnodup⟩ := List.nodup_cons.mp hnodup
      obtain ⟨s, hs, hperm, hsorted⟩ := ih (h.sub fun a ha => List.mem_cons_of_mem x ha) hnodup
      have hsub : ∀ a ∈ x :: s, a ∈ x :: l := fun a ha => (hperm.cons x).subset ha
      obtain ⟨s', hs', hperm', hsorted'⟩ := insertEntry_eq (h.sub hsub) (fun hmem => hx (hperm.subset hmem)) hsorted
      refine ⟨s', ?_, hperm'.trans (hperm.cons x), hsorted'⟩
      rw [qsort, hs, ok_bind, hs']

end Sorting

/-! ## The list of a resolved tree -/

/-- No entry of the list is another one or lies above it. -/
structure Antichain (t : ChunkTreeInfo) (l : List Nat) : Prop where
  nodup : l.Nodup
  not_above : ∀ a ∈ l, ∀ b ∈ l, ∀ m, m < (t.pNames b).level → up t m b ≠ a

section Result

variable {cfg : Config} {t : ChunkTreeInfo} {r : Lookup} {low : Nat} {l : List Nat}

/-- The entries are listed ones of the levels that were looked up. -/
def FromLookup (t : ChunkTreeInfo) (state : Nat → Bool) (low : Nat) (l : List Nat) : Prop :=
  ∀ k ∈ l, ∃ i, i ≤ low ∧ k ∈ t.level i ∧ Listed t state k

theorem antichain_of_lookup (ht : ReceivedTree cfg t) (hr : InLevel t low r []) (hl : FromLookup t r.chunkState low l)
    (hnodup : l.Nodup) : Antichain t l := by
  have hlow := hr.level_lt
  refine ⟨hnodup, ?_⟩
  intro a ha b hb m hm habove
  obtain ⟨i, hi, hmem, hlisted⟩ := hl b hb
  obtain ⟨j, -, -, hlisted'⟩ := hl a ha
  rw [ht.level_eq i (by omega) b hmem] at hm
  exact not_above ht hr hi hm hmem hlisted habove hlisted'

theorem earlier_total (ht : ReceivedTree cfg t) (hr : InLevel t low r []) (hl : FromLookup t r.chunkState low l) {a b : Nat}
    (ha : a ∈ l) (hb : b ∈ l) (hne : a ≠ b) : Earlier t a b ∨ Earlier t b a := by
  have hlow := hr.level_lt
  obtain ⟨i, hi, hmem, hlisted⟩ := hl a ha
  obtain ⟨j, hj, hmem', hlisted'⟩ := hl b hb
  rw [earlier_iff ht (by omega) (by omega) hmem hmem', earlier_iff ht (by omega) (by omega) hmem' hmem, min_comm j i]
  rcases Nat.lt_trichotomy (up t (min i j) a) (up t (min i j) b) with hlt | heq | hgt
  · exact .inl hlt
  · exfalso
    rcases Nat.lt_trichotomy i j with hij | rfl | hij
    · rw [min_eq_left hij.le, up_self ht (by omega) hmem] at heq
      exact not_above ht hr hj hij hmem' hlisted' heq.symm hlisted
    · rw [min_self, up_self ht (by omega) hmem, up_self ht (by omega) hmem'] at heq
      exact hne heq
    · rw [min_eq_right hij.le, up_self ht (by omega) hmem'] at heq
      exact not_above ht hr hi hij hmem hlisted heq hlisted'
  · exact .inr hgt

theorem earlier_asymm {a b : Nat} (h : Earlier t a b) : ¬ Earlier t b a := by
  intro h'
  unfold Earlier at h h'
  rw [min_comm] at h'
  omega

theorem earlier_trans (ht : ReceivedTree cfg t) (hr : InLevel t low r []) (hl : FromLookup t r.chunkState low l) {a b c : Nat}
    (ha : a ∈ l) (hb : b ∈ l) (hc : c ∈ l) (hab : Earlier t a b) (hbc : Earlier t b c) : Earlier t a c := by
  have hlow := hr.level_lt
  obtain ⟨i, hi, hai, -⟩ := hl a ha
  obtain ⟨j, hj, hbj, -⟩ := hl b hb
  obtain ⟨n, hn, hcn, -⟩ := hl c hc
  rcases Nat.lt_or_ge j (min i n) with hlow' | hhigh
  · -- the middle one stands highest: the order is decided on its level
    have h1 := (earlier_iff ht (by omega) (by omega) hai hbj).mp hab
    have h2 := (earlier_iff ht (by omega) (by omega) hbj hcn).mp hbc
    rw [min_eq_right (by omega : j ≤ i)] at h1
    rw [min_eq_left (by omega : j ≤ n)] at h2
    exact earlier_of_up_lt ht (by omega) (by omega) hai hcn (by omega) (by omega) (h1.trans h2)
  · have h1 := up_le_of_earlier ht (by omega) (by omega) hai hbj hab (min_le_left i n) hhigh
    have h2 := up_le_of_earlier ht (by omega) (by omega) hbj hcn hbc hhigh (min_le_right i n)
    by_cases heq : a = c
    · exact absurd hbc (heq ▸ earlier_asymm hab)
    · refine (earlier_total ht hr hl ha hc heq).resolve_right fun hca => ?_
      have h3 := (earlier_iff ht (by omega) (by omega) hcn hai).mp hca
      rw [min_comm] at h3
      omega

theorem orders_of_lookup (ht : ReceivedTree cfg t) (hr : InLevel t low r []) (hl : FromLookup t r.chunkState low l) :
    Orders (compareChunkIndex cfg t.pNames) (Earlier t) l := by
  have hlow := hr.level_lt
  refine ⟨?_, fun a ha b hb c hc => earlier_trans ht hr hl ha hb hc⟩
  intro a ha b hb hne
  obtain ⟨i, hi, hmem, -⟩ := hl a ha
  obtain ⟨j, hj, hmem', -⟩ := hl b hb
  rcases earlier_total ht hr hl ha hb hne with h | h
  · exact .inl ⟨(compare_earlier ht (by omega) (by omega) hmem hmem').mpr h, h⟩
  · exact .inr ⟨compare_later ht (by omega) (by omega) hmem hmem' h, h⟩

theorem abut_of_lookup (ht : ReceivedTree cfg t) (hr : InLevel t low r []) (hl : FromLookup t r.chunkState low l)
    (hsorted : l.Pairwise (Earlier t)) (hbytes : (l.map (lenOf t.pNames)).sum = lenOf t.pNames 0) :
    Tiling.Abut (streamOff t) (lenOf t.pNames) 0 (lenOf t.pNames 0) l := by
  have hlow := hr.level_lt
  refine Tiling.abut_of_disjoint ?_ ?_ (by rw [hbytes, Nat.zero_add])
  · refine hsorted.imp_of_mem fun ha hb h => ?_
    obtain ⟨i, hi, hmem, -⟩ := hl _ ha
    obtain ⟨j, hj, hmem', -⟩ := hl _ hb
    exact streamOff_of_earlier ht (by omega) (by omega) hmem hmem' h
  · intro a ha
    obtain ⟨i, hi, hmem, -⟩ := hl a ha
    exact ⟨Nat.zero_le _, streamOff_le ht (by omega) hmem⟩

end Result

/-- The lookup in memory passes its assertions whatever the callback answers, and so do the two passes over its result. The names
are an antichain of the tree that the comparison orders strictly; sorted, they make up the block without a gap. -/
theorem missing_chunk_list {cfg : Config} {t : ChunkTreeInfo} (ht : ReceivedTree cfg t) (hsize : lenOf t.pNames 0 < 2 ^ 30)
    (hall : AllOnLevels t) {σ : Type} (cb : σ → Sha1Name → Bool × σ) (r : Lookup) (s : σ) :
    ∃ r' s' listed result, resolveMRCTreeInMemory cfg t cb r s = .ok (r', s') ∧
      r'.bytesHits + r'.bytesMissingChunks = lenOf t.pNames 0 ∧
      getChunkNameList2 cfg t r'.chunkState = .ok listed ∧
      missingChunkPolicy cfg t r'.chunkState = .ok result ∧ result.Perm listed ∧
      Orders (compareChunkIndex cfg t.pNames) (Earlier t) listed ∧ (∀ a b, Earlier t a b → ¬ Earlier t b a) ∧
      result.Pairwise (Earlier t) ∧ Antichain t result ∧
      Tiling.Abut (streamOff t) (lenOf t.pNames) 0 (lenOf t.pNames 0) result := by
  obtain ⟨r', s', low, hrun, hr, hstop⟩ := resolveMRCTreeInMemory_eq ht hsize cb r s
  have hlow := hr.level_lt
  have hroot := ht.root_pos
  have hstart : bytesOf t.pNames (Listed t r'.chunkState) (List.range 0) ≠ lenOf t.pNames 0 := by
    rw [List.range_zero, bytesOf_nil]
    omega
  obtain ⟨j, hj, hbytes, hlist⟩ := listNames_eq ht hall hr hstop (Nat.zero_le _) (Nat.zero_add _) hstart
  have hl : FromLookup t r'.chunkState low ((List.range j).filter (Listed t r'.chunkState)) := by
    intro k hk
    obtain ⟨hmem, hlisted⟩ := List.mem_filter.mp hk
    obtain ⟨i, hi, hmem⟩ := exists_level ht hlow (lt_of_lt_of_le (List.mem_range.mp hmem) hj)
    exact ⟨i, hi, hmem, by simpa using hlisted⟩
  have hnodup : ((List.range j).filter (Listed t r'.chunkState)).Nodup := List.nodup_range.filter _
  have horders := orders_of_lookup ht hr hl
  obtain ⟨result, hsort, hperm, hsorted⟩ := qsort_eq horders hnodup
  have hlength : ((List.range j).filter (Listed t r'.chunkState)).length ≤ t.numNames := by
    have hle := List.length_filter_le (fun k => decide (Listed t r'.chunkState k)) (List.range j)
    have hend := ht.bounds low hlow
    rw [List.length_range] at hle
    rw [levelEnd] at hj
    omega
  have hget : getChunkNameList2 cfg t r'.chunkState = .ok ((List.range j).filter (Listed t r'.chunkState)) := by
    have hlist' : listNames cfg t r'.chunkState t.numNames 0 [] 0 = .ok ((List.range j).filter (Listed t r'.chunkState)) := hlist
    rw [getChunkNameList2, hlist', ok_bind, check_of hlength]
    rfl
  have hnames := ht.names_le
  have hl' : FromLookup t r'.chunkState low result := fun k hk => hl k (hperm.subset hk)
  refine ⟨r', s', _, result, hrun, hr.hits, hget, ?_, hperm, horders, fun a b => earlier_asymm, hsorted,
    antichain_of_lookup ht hr hl' (hperm.nodup_iff.mpr hnodup), abut_of_lookup ht hr hl' hsorted ?_⟩
  · rw [missingChunkPolicy, hget, ok_bind, check_of (by omega), ok_bind]
    exact hsort
  · rw [(hperm.map _).sum_eq]
    exact hbytes

theorem sampleReceived_levels : AllOnLevels sampleReceived := by
  show ∀ k, k < 3 → ∃ i, i < 2 ∧ k ∈ sampleReceived.level i
  decide

theorem missing_chunk_list_sample :
    ((resolveMRCTreeInMemory sampleConfig sampleReceived (lookIn firstHalf) initLookup () >>= fun out =>
      missingChunkPolicy sampleConfig sampleReceived out.1.chunkState).toOption) = some [1, 2] ∧
    ∃ r' s' listed result, resolveMRCTreeInMemory sampleConfig sampleReceived (lookIn firstHalf) initLookup () = .ok (r', s') ∧
      r'.bytesHits + r'.bytesMissingChunks = lenOf sampleReceived.pNames 0 ∧
      getChunkNameList2 sampleConfig sampleReceived r'.chunkState = .ok listed ∧
      missingChunkPolicy sampleConfig sampleReceived r'.chunkState = .ok result ∧ result.Perm listed ∧
      Orders (compareChunkIndex sampleConfig sampleReceived.pNames) (Earlier sampleReceived) listed ∧
      (∀ a b, Earlier sampleReceived a b → ¬ Earlier sampleReceived b a) ∧
      result.Pairwise (Earlier sampleReceived) ∧ Antichain sampleReceived result ∧
      Tiling.Abut (streamOff sampleReceived) (lenOf sampleReceived.pNames) 0 (lenOf sampleReceived.pNames 0) result :=
  ⟨by decide, missing_chunk_list sampleReceived_tree (by decide) sampleReceived_levels (lookIn firstHalf) initLookup ()⟩

end BeagleCache.ChunkNameList

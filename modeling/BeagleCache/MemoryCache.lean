import BeagleCache.ChunkCache

/-! The memory cache of a proxy, `mem_ht` with the queue `g_CacheFifo` and the counters `g_NumKeys` and `g_CacheSize`. A put that
does not fit takes the oldest entries out until twice its size is gone. What is taken off `g_CacheSize` for an entry that leaves is
less than what was added when it came: `CheckCache` counts the key and the block, `PutMemory` counts the value as well. The
counters are therefore the ones of the entries exactly as long as no entry ever leaves. -/

namespace BeagleCache

open Run

/-- The conversion of a number to `int`. -/
def wrapInt (n : Int) : Int := (n + 2 ^ 31) % 2 ^ 32 - 2 ^ 31

/-- `CacheKey`. -/
structure CacheKey where
  sha1name : Sha1Name
  blockLength : Nat
  deriving DecidableEq

/-- `sizeof(CacheKey)`: the name, the length and four pointers. -/
def sizeofCacheKey : Nat := 56

/-- `sizeof(CacheValue)`: a pointer and two integers. -/
def sizeofCacheValue : Nat := 16

/-- `mem_ht`, `g_CacheFifo`, `g_NumKeys` and `g_CacheSize`. -/
structure MemCache where
  numKeys : Int
  cacheSize : Int
  memHt : List (Sha1Name × CacheValue)
  fifo : List CacheKey

/-- The cache as `CreateCache` leaves it. -/
def emptyMemCache : MemCache := ⟨0, 0, [], []⟩

def getMemory (s : MemCache) (sha1name : Sha1Name) : Option CacheValue := s.memHt.lookup sha1name

/-- `_PutHT`; `block_length` is the length of `block`. -/
def putHT (ht : List (Sha1Name × CacheValue)) (sha1name : Sha1Name) (block : Bytes) : Run (List (Sha1Name × CacheValue)) := do
  check (ht.lookup sha1name = none)
  return (sha1name, ⟨block, 1⟩) :: ht

/-- `_RemoveHT`. -/
def removeHT (ht : List (Sha1Name × CacheValue)) (sha1name : Sha1Name) : Run (List (Sha1Name × CacheValue)) := do
  check (sha1name ∈ ht.map Prod.fst)
  return ht.eraseP fun entry => entry.1 = sha1name

/-- The first loop of `CheckCache`: the victims, the last one found first. -/
def pickVictims (s : MemCache) : Int → List CacheKey → List CacheKey → Run (List CacheKey)
  | _, freeList, [] => .ok freeList
  | targetSize, freeList, walk :: rest =>
      if targetSize ≤ 0 then .ok freeList
      else match getMemory s walk.sha1name with
        | none => .error .overrun
        | some value => pickVictims s (wrapInt (targetSize - value.pBlock.length)) (walk :: freeList) rest

/-- The second loop of `CheckCache`. -/
def removeVictims : List CacheKey → MemCache → Run MemCache
  | [], s => .ok s
  | walk :: freeList, s => do
      let numKeys := wrapInt (s.numKeys - 1)
      check (0 ≤ numKeys)
      let cacheSize := wrapInt (s.cacheSize - (sizeofCacheKey + walk.blockLength))
      check (0 ≤ cacheSize)
      let memHt ← removeHT s.memHt walk.sha1name
      removeVictims freeList ⟨numKeys, cacheSize, memHt, s.fifo.erase walk⟩

def checkCache (maxCacheSize : Int) (neededSize : Int) (s : MemCache) : Run MemCache :=
  if wrapInt (s.cacheSize + neededSize) ≤ maxCacheSize then .ok s
  else do
    let targetSize := wrapInt (neededSize * 2)
    check (0 ≤ targetSize)
    let freeList ← pickVictims s targetSize [] s.fifo
    removeVictims freeList s

/-- What a block of a length takes in the cache. -/
def entrySize (blockLength : Nat) : Nat := sizeofCacheKey + sizeofCacheValue + blockLength

def putMemory (maxCacheSize : Int) (s : MemCache) (sha1name : Sha1Name) (block : Bytes) : Run MemCache :=
  if getMemory s sha1name ≠ none then .ok s
  else do
    let newSize := wrapInt (entrySize block.length)
    let s ← checkCache maxCacheSize newSize s
    let memHt ← putHT s.memHt sha1name block
    return ⟨wrapInt (s.numKeys + 1), wrapInt (s.cacheSize + newSize), memHt, s.fifo ++ [⟨sha1name, block.length⟩]⟩

/-- The arguments of a call of `PutMemory`, whose length is an `int`. -/
structure MemPut where
  sha1name : Sha1Name
  block : Bytes
  length_lt : block.length < 2 ^ 31

/-- A sequence of calls of `PutMemory` with the limit `_maxCacheSize`. -/
def putMemories (maxCacheSize : BitVec 32) (puts : List MemPut) (s : MemCache) : Run MemCache :=
  puts.foldlM (fun s put => putMemory maxCacheSize.toInt s put.sha1name put.block) s

/-- The key that is kept for an entry. -/
def keyOf (entry : Sha1Name × CacheValue) : CacheKey := ⟨entry.1, entry.2.pBlock.length⟩

/-- What the entries take in the cache. -/
def entriesSize (ht : List (Sha1Name × CacheValue)) : Nat := (ht.map fun entry => entrySize entry.2.pBlock.length).sum

/-- The counters are the ones of the entries after the calls `puts`, and the queue and the table hold the same names. -/
structure MemAccounted (maxCacheSize : BitVec 32) (puts : List MemPut) (s : MemCache) : Prop where
  numKeys_table : s.numKeys = s.memHt.length
  numKeys_fifo : s.numKeys = s.fifo.length
  cacheSize_eq : s.cacheSize = entriesSize s.memHt
  names_iff : ∀ name, name ∈ s.fifo.map CacheKey.sha1name ↔ name ∈ s.memHt.map Prod.fst
  fifo_nodup : (s.fifo.map CacheKey.sha1name).Nodup
  table_nodup : (s.memHt.map Prod.fst).Nodup
  bounded : puts ≠ [] → (∀ put ∈ puts, (entrySize put.block.length : Int) ≤ maxCacheSize.toInt) → s.cacheSize ≤ maxCacheSize.toInt

/-- The call takes no entry out: the name is there, or the block fits, or there is nothing to take out. -/
def HasRoom (maxCacheSize : BitVec 32) (s : MemCache) (put : MemPut) : Prop :=
  getMemory s put.sha1name ≠ none ∨ s.cacheSize + entrySize put.block.length ≤ maxCacheSize.toInt ∨
    s.fifo = [] ∧ entrySize put.block.length < 2 ^ 30

/-- The queue has the key of every entry, each name once, and `g_CacheSize` is an `int`. -/
structure MemConsistent (s : MemCache) : Prop where
  perm : s.fifo.Perm (s.memHt.map keyOf)
  nodup : (s.fifo.map CacheKey.sha1name).Nodup
  cacheSize_lt : s.cacheSize < 2 ^ 31

theorem wrapInt_of_lt {n : Int} (hlow : -2 ^ 31 ≤ n) (hhigh : n < 2 ^ 31) : wrapInt n = n := by
  unfold wrapInt
  omega

/-- What is lost in a conversion is a multiple of `2 ^ 32`. -/
theorem wrapInt_exists (n : Int) : ∃ m : Int, wrapInt n = n + 2 ^ 32 * m := by
  refine ⟨-((n + 2 ^ 31) / 2 ^ 32), ?_⟩
  unfold wrapInt
  omega

theorem wrapInt_lt (n : Int) : wrapInt n < 2 ^ 31 := by
  unfold wrapInt
  omega

/-- What the entries of some keys take in the cache. -/
def keysSize (keys : List CacheKey) : Nat := (keys.map fun key => entrySize key.blockLength).sum

@[simp] theorem keysSize_nil : keysSize [] = 0 := rfl

@[simp] theorem keysSize_cons (key : CacheKey) (keys : List CacheKey) :
    keysSize (key :: keys) = entrySize key.blockLength + keysSize keys := by
  simp [keysSize]

theorem keysSize_perm {keys keys' : List CacheKey} (h : keys.Perm keys') : keysSize keys = keysSize keys' :=
  (h.map _).sum_eq

theorem keysSize_map_keyOf (ht : List (Sha1Name × CacheValue)) : keysSize (ht.map keyOf) = entriesSize ht := by
  simp [keysSize, entriesSize, keyOf, Function.comp_def]

theorem entriesSize_cons (name : Sha1Name) (value : CacheValue) (ht : List (Sha1Name × CacheValue)) :
    entriesSize ((name, value) :: ht) = entrySize value.pBlock.length + entriesSize ht := by
  simp [entriesSize]

theorem length_le_keysSize (keys : List CacheKey) : 72 * keys.length ≤ keysSize keys := by
  induction keys with
  | nil => simp
  | cons key keys ih =>
      have hkey : 72 ≤ entrySize key.blockLength := Nat.le_add_right _ _
      rw [keysSize_cons, List.length_cons]
      omega

theorem lookup_eq_none_iff {ht : List (Sha1Name × CacheValue)} {name : Sha1Name} :
    ht.lookup name = none ↔ name ∉ ht.map Prod.fst := by
  rw [List.lookup_eq_none_iff]
  simp only [List.mem_map, Prod.exists, exists_and_right, exists_eq_right, not_exists]
  constructor
  · intro h value hmem
    simpa using h _ hmem
  · rintro h ⟨name', value⟩ hmem
    have hne : name ≠ name' := by
      rintro rfl
      exact h value hmem
    simpa using hne

namespace MemConsistent

variable {s s' : MemCache}

theorem names_perm (h : MemConsistent s) : (s.fifo.map CacheKey.sha1name).Perm (s.memHt.map Prod.fst) := by
  have hmap := h.perm.map CacheKey.sha1name
  rwa [List.map_map] at hmap

theorem entriesSize_eq (h : MemConsistent s) : entriesSize s.memHt = keysSize s.fifo := by
  rw [← keysSize_map_keyOf]
  exact (keysSize_perm h.perm).symm

theorem length_eq (h : MemConsistent s) : s.fifo.length = s.memHt.length := by
  rw [h.perm.length_eq, List.length_map]

theorem remove (h : MemConsistent s) {walk : CacheKey} (hmem : walk ∈ s.fifo) {memHt : List (Sha1Name × CacheValue)}
    (hremove : removeHT s.memHt walk.sha1name = .ok memHt) (numKeys : Int) {cacheSize : Int} (hlt : cacheSize < 2 ^ 31) :
    MemConsistent ⟨numKeys, cacheSize, memHt, s.fifo.erase walk⟩ := by
  obtain ⟨_, hcheck, hret⟩ := bind_eq_ok.mp hremove
  cases hret
  obtain ⟨entry, hentry, hname⟩ := List.mem_map.mp (check_eq_ok.mp hcheck)
  obtain ⟨a, before, after, _, ha, hsplit, herase⟩ :=
    List.exists_of_eraseP (p := fun entry => decide (entry.1 = walk.sha1name)) hentry (by simpa using hname)
  have htable : s.memHt.map keyOf = before.map keyOf ++ keyOf a :: after.map keyOf := by
    rw [hsplit, List.map_append, List.map_cons]
  have hsame : keyOf a = walk := by
    have hin : keyOf a ∈ s.fifo := by
      rw [h.perm.mem_iff, htable]
      simp
    exact List.inj_on_of_nodup_map h.nodup hin hmem (by simpa [keyOf] using ha)
  refine ⟨?_, ?_, hlt⟩
  · show (s.fifo.erase walk).Perm ((s.memHt.eraseP fun entry => entry.1 = walk.sha1name).map keyOf)
    rw [herase, List.map_append]
    apply List.Perm.cons_inv (a := walk)
    calc
      (walk :: s.fifo.erase walk).Perm s.fifo := (List.perm_cons_erase hmem).symm
      List.Perm _ (s.memHt.map keyOf) := h.perm
      List.Perm _ (walk :: (before.map keyOf ++ after.map keyOf)) := by
        rw [htable, hsame]
        exact List.perm_middle
  · exact h.nodup.sublist (List.erase_sublist.map _)

end MemConsistent

/-- The victims are the oldest entries, and there is one if something is wanted and something is there. -/
theorem pickVictims_ok {s : MemCache} {targetSize : Int} {free walk freeList : List CacheKey}
    (h : pickVictims s targetSize free walk = .ok freeList) :
    ∃ victims, victims <+: walk ∧ freeList = victims.reverse ++ free ∧ (0 < targetSize → walk ≠ [] → victims ≠ []) := by
  induction walk generalizing targetSize free with
  | nil =>
      cases h
      exact ⟨[], List.nil_prefix, rfl, fun _ hne => absurd rfl hne⟩
  | cons key walk ih =>
      rw [pickVictims] at h
      by_cases htarget : targetSize ≤ 0
      · rw [if_pos htarget] at h
        cases h
        exact ⟨[], List.nil_prefix, rfl, fun hpos => absurd hpos (by omega)⟩
      · rw [if_neg htarget] at h
        cases hvalue : getMemory s key.sha1name with
        | none =>
            rw [hvalue] at h
            cases h
        | some value =>
            rw [hvalue] at h
            obtain ⟨victims, hpre, rfl, _⟩ := ih h
            refine ⟨key :: victims, (List.prefix_cons_inj key).mpr hpre, ?_, fun _ _ => List.cons_ne_nil _ _⟩
            rw [List.reverse_cons, List.append_assoc, List.singleton_append]

/-- The victims leave the queue and the table. For each of them `CheckCache` takes less off than it took in the cache. -/
theorem removeVictims_ok {freeList : List CacheKey} {s s' : MemCache} (hcons : MemConsistent s) (hsub : freeList ⊆ s.fifo)
    (hnodup : freeList.Nodup) (h : removeVictims freeList s = .ok s') :
    MemConsistent s' ∧ keysSize s'.fifo + keysSize freeList = keysSize s.fifo ∧
      ∃ m : Int, s'.cacheSize = s.cacheSize - keysSize freeList + sizeofCacheValue * freeList.length + 2 ^ 32 * m := by
  induction freeList generalizing s with
  | nil =>
      cases h
      exact ⟨hcons, rfl, 0, by simp⟩
  | cons walk freeList ih =>
      obtain ⟨_, _, h⟩ := bind_eq_ok.mp h
      obtain ⟨_, _, h⟩ := bind_eq_ok.mp h
      obtain ⟨memHt, hremove, h⟩ := bind_eq_ok.mp h
      have hwalk : walk ∈ s.fifo := hsub List.mem_cons_self
      have hrest : freeList ⊆ s.fifo.erase walk := by
        intro key hkey
        have hne : key ≠ walk := by
          rintro rfl
          exact (List.nodup_cons.mp hnodup).1 hkey
        exact (List.mem_erase_of_ne hne).mpr (hsub (List.mem_cons_of_mem _ hkey))
      obtain ⟨hcons', hsize, m, hm⟩ := ih (hcons.remove hwalk hremove _ (wrapInt_lt _)) hrest hnodup.of_cons h
      have hfifo : keysSize s.fifo = entrySize walk.blockLength + keysSize (s.fifo.erase walk) := by
        rw [keysSize_perm (List.perm_cons_erase hwalk), keysSize_cons]
      refine ⟨hcons', ?_, ?_⟩
      · rw [keysSize_cons, hfifo]
        have hsize' : keysSize s'.fifo + keysSize freeList = keysSize (s.fifo.erase walk) := hsize
        omega
      · obtain ⟨m', hm'⟩ := wrapInt_exists (s.cacheSize - (sizeofCacheKey + walk.blockLength))
        refine ⟨m + m', ?_⟩
        have hm₁ : s'.cacheSize = wrapInt (s.cacheSize - (sizeofCacheKey + walk.blockLength)) - keysSize freeList +
            sizeofCacheValue * freeList.length + 2 ^ 32 * m := hm
        rw [hm₁, hm', keysSize_cons, List.length_cons]
        simp only [entrySize, sizeofCacheKey, sizeofCacheValue]
        push_cast
        omega

/-- `CheckCache` either finds room or takes some entries out, at least one if there is one. -/
theorem checkCache_ok {maxCacheSize neededSize : Int} {s s' : MemCache} (hcons : MemConsistent s)
    (h : checkCache maxCacheSize neededSize s = .ok s') :
    MemConsistent s' ∧ ∃ victims : List CacheKey, ∃ m : Int,
      keysSize s'.fifo + keysSize victims = keysSize s.fifo ∧
      s'.cacheSize = s.cacheSize - keysSize victims + sizeofCacheValue * victims.length + 2 ^ 32 * m ∧
      (maxCacheSize < wrapInt (s.cacheSize + neededSize) →
        0 ≤ wrapInt (neededSize * 2) ∧ (0 < wrapInt (neededSize * 2) → s.fifo ≠ [] → victims ≠ [])) := by
  unfold checkCache at h
  by_cases hroom : wrapInt (s.cacheSize + neededSize) ≤ maxCacheSize
  · rw [if_pos hroom] at h
    cases h
    exact ⟨hcons, [], 0, rfl, by simp, fun hlt => absurd hlt (by omega)⟩
  · rw [if_neg hroom] at h
    obtain ⟨_, htarget, h⟩ := bind_eq_ok.mp h
    obtain ⟨freeList, hpick, h⟩ := bind_eq_ok.mp h
    obtain ⟨victims, hpre, rfl, hsome⟩ := pickVictims_ok hpick
    rw [List.append_nil] at h
    have hfifo : s.fifo.Nodup := hcons.nodup.of_map _
    have hsub : victims.reverse ⊆ s.fifo := fun key hkey => hpre.subset (List.mem_reverse.mp hkey)
    have hnodup : victims.reverse.Nodup := List.nodup_reverse.mpr (hpre.sublist.nodup hfifo)
    obtain ⟨hcons', hsize, m, hm⟩ := removeVictims_ok hcons hsub hnodup h
    refine ⟨hcons', victims.reverse, m, hsize, hm, fun _ => ⟨check_eq_ok.mp htarget, fun hpos hne => ?_⟩⟩
    simpa using hsome hpos hne

theorem putMemory_absent {maxCacheSize : Int} {s s' : MemCache} {sha1name : Sha1Name} {block : Bytes}
    (habsent : getMemory s sha1name = none) (h : putMemory maxCacheSize s sha1name block = .ok s') :
    ∃ s₁, checkCache maxCacheSize (wrapInt (entrySize block.length)) s = .ok s₁ ∧ sha1name ∉ s₁.memHt.map Prod.fst ∧
      s' = ⟨wrapInt (s₁.numKeys + 1), wrapInt (s₁.cacheSize + wrapInt (entrySize block.length)),
        (sha1name, ⟨block, 1⟩) :: s₁.memHt, s₁.fifo ++ [⟨sha1name, block.length⟩]⟩ := by
  unfold putMemory at h
  rw [if_neg (not_not.mpr habsent)] at h
  obtain ⟨s₁, hcheck, h⟩ := bind_eq_ok.mp h
  obtain ⟨memHt, hput, h⟩ := bind_eq_ok.mp h
  obtain ⟨_, hnone, hret⟩ := bind_eq_ok.mp hput
  cases hret
  cases h
  exact ⟨s₁, hcheck, lookup_eq_none_iff.mp (check_eq_ok.mp hnone), rfl⟩

theorem MemConsistent.insert {s : MemCache} (h : MemConsistent s) {sha1name : Sha1Name} (hnew : sha1name ∉ s.memHt.map Prod.fst)
    (block : Bytes) (numKeys : Int) {cacheSize : Int} (hlt : cacheSize < 2 ^ 31) :
    MemConsistent ⟨numKeys, cacheSize, (sha1name, ⟨block, 1⟩) :: s.memHt, s.fifo ++ [⟨sha1name, block.length⟩]⟩ := by
  refine ⟨?_, ?_, hlt⟩
  · exact (List.perm_append_singleton _ _).trans (h.perm.cons _)
  · rw [List.map_append, List.map_singleton, List.nodup_append]
    refine ⟨h.nodup, List.nodup_singleton _, ?_⟩
    rintro name hname _ hmem rfl
    rw [List.mem_singleton.mp hmem] at hname
    exact hnew (h.names_perm.mem_iff.mp hname)

theorem putMemory_consistent {maxCacheSize : Int} {s s' : MemCache} {sha1name : Sha1Name} {block : Bytes} (hcons : MemConsistent s)
    (h : putMemory maxCacheSize s sha1name block = .ok s') : MemConsistent s' := by
  by_cases hpresent : getMemory s sha1name = none
  · obtain ⟨s₁, hcheck, hnew, rfl⟩ := putMemory_absent hpresent h
    exact (checkCache_ok hcons hcheck).1.insert hnew block _ (wrapInt_lt _)
  · rw [putMemory, if_pos hpresent] at h
    cases h
    exact hcons

/-- In every run the queue and the table hold the same names. -/
theorem putMemories_consistent {maxCacheSize : BitVec 32} {puts : List MemPut} {s s' : MemCache} (hcons : MemConsistent s)
    (h : putMemories maxCacheSize puts s = .ok s') : MemConsistent s' := by
  induction puts generalizing s with
  | nil =>
      cases h
      exact hcons
  | cons put puts ih =>
      rw [putMemories, List.foldlM_cons] at h
      obtain ⟨s₁, hput, h⟩ := bind_eq_ok.mp h
      exact ih (putMemory_consistent hcons hput) h

theorem emptyMemCache_consistent : MemConsistent emptyMemCache := ⟨List.Perm.refl _, List.nodup_nil, by norm_num [emptyMemCache]⟩

section Step

variable {maxCacheSize : BitVec 32} {puts : List MemPut} {put : MemPut} {s s' : MemCache}

theorem checkCache_room (hcons : MemConsistent s) (hacc : MemAccounted maxCacheSize puts s) (habsent : getMemory s put.sha1name = none)
    (hroom : HasRoom maxCacheSize s put) :
    checkCache maxCacheSize.toInt (wrapInt (entrySize put.block.length)) s = .ok s ∧
      s.cacheSize + entrySize put.block.length < 2 ^ 31 := by
  have hmax : maxCacheSize.toInt < 2 ^ 31 := by
    have hlt := maxCacheSize.toInt_lt
    simpa using hlt
  have hsize : 0 ≤ s.cacheSize := by
    rw [hacc.cacheSize_eq]
    exact Int.natCast_nonneg _
  rcases hroom with hpresent | hfit | ⟨hempty, hsmall⟩
  · exact absurd habsent hpresent
  · have hlt : s.cacheSize + entrySize put.block.length < 2 ^ 31 := by omega
    refine ⟨?_, hlt⟩
    rw [wrapInt_of_lt (by omega) (by omega), checkCache, if_pos]
    rwa [wrapInt_of_lt (by omega) hlt]
  · have hzero : s.cacheSize = 0 := by
      rw [hacc.cacheSize_eq, hcons.entriesSize_eq, hempty]
      rfl
    have hlt : s.cacheSize + entrySize put.block.length < 2 ^ 31 := by omega
    refine ⟨?_, hlt⟩
    rw [wrapInt_of_lt (by omega) (by omega), checkCache]
    split
    · rfl
    · have htarget : wrapInt (entrySize put.block.length * 2) = entrySize put.block.length * 2 :=
        wrapInt_of_lt (by omega) (by omega)
      dsimp only
      rw [htarget, check_of (by omega), ok_bind, hempty]
      rfl

theorem putMemory_accounted (hcons : MemConsistent s) (hacc : MemAccounted maxCacheSize puts s)
    (hstart : puts = [] → s = emptyMemCache) (hroom : HasRoom maxCacheSize s put) :
    ∃ s', putMemory maxCacheSize.toInt s put.sha1name put.block = .ok s' ∧ MemAccounted maxCacheSize (puts ++ [put]) s' := by
  by_cases habsent : getMemory s put.sha1name = none
  · obtain ⟨hcheck, hlt⟩ := checkCache_room hcons hacc habsent hroom
    have hnew : put.sha1name ∉ s.memHt.map Prod.fst := lookup_eq_none_iff.mp habsent
    have hsize := hacc.cacheSize_eq
    have hkeys := length_le_keysSize s.fifo
    rw [← hcons.entriesSize_eq, hcons.length_eq] at hkeys
    have hnum : s.numKeys = s.memHt.length := hacc.numKeys_table
    have hret : putMemory maxCacheSize.toInt s put.sha1name put.block =
        .ok ⟨s.numKeys + 1, s.cacheSize + entrySize put.block.length, (put.sha1name, ⟨put.block, 1⟩) :: s.memHt,
          s.fifo ++ [⟨put.sha1name, put.block.length⟩]⟩ := by
      have htable : s.memHt.lookup put.sha1name = none := habsent
      rw [putMemory, if_neg (not_not.mpr habsent)]
      dsimp only
      rw [hcheck, ok_bind, putHT, check_of htable, ok_bind, pure_eq_ok, ok_bind, pure_eq_ok,
        wrapInt_of_lt (n := entrySize put.block.length) (by omega) (by omega), wrapInt_of_lt (by omega) (by omega),
        wrapInt_of_lt (by omega) (by omega)]
    have hcons' := hcons.insert hnew put.block (s.numKeys + 1) hlt
    refine ⟨_, hret, ?_, ?_, ?_, fun name => hcons'.names_perm.mem_iff, hcons'.nodup, hcons'.names_perm.nodup_iff.mp hcons'.nodup, ?_⟩
    · simp [hnum]
    · simp [hacc.numKeys_fifo]
    · show s.cacheSize + entrySize put.block.length = entriesSize ((put.sha1name, ⟨put.block, 1⟩) :: s.memHt)
      rw [entriesSize_cons, hsize, Nat.cast_add, add_comm]
    · intro _ hfits
      show s.cacheSize + entrySize put.block.length ≤ maxCacheSize.toInt
      rcases hroom with hpresent | hfit | ⟨hempty, _⟩
      · exact absurd habsent hpresent
      · exact hfit
      · have hone := hfits put (List.mem_append_right _ List.mem_cons_self)
        have hzero : entriesSize s.memHt = 0 := by
          rw [hcons.entriesSize_eq, hempty]
          rfl
        omega
  · have hne : puts ≠ [] := by
      intro hnil
      rw [hstart hnil] at habsent
      exact habsent rfl
    refine ⟨s, if_pos habsent, ?_⟩
    exact { hacc with bounded := fun _ hfits => hacc.bounded hne fun p hp => hfits p (List.mem_append_left _ hp) }

/-- A small multiple of `sizeof(CacheValue)` is a multiple of `2 ^ 32` only if it is none. -/
theorem eq_zero_of_multiple {n : Nat} {m : Int} (h : 16 * (n : Int) = 2 ^ 32 * m) (hlt : 16 * n < 2 ^ 32) : n = 0 := by
  omega

/-- The assertion on `targetSize` fails for what is too large to be doubled. -/
theorem twice_pos {size : Nat} (hpos : 0 < size) (hlt : size < 2 ^ 31) (h : 0 ≤ wrapInt (size * 2)) :
    size < 2 ^ 30 ∧ 0 < wrapInt (size * 2) := by
  unfold wrapInt at *
  omega

/-- Only with room: a call that takes an entry out leaves a count that is too large. -/
theorem hasRoom_of_accounted (hcons : MemConsistent s) (hacc : MemAccounted maxCacheSize puts s)
    (h : putMemory maxCacheSize.toInt s put.sha1name put.block = .ok s') (hacc' : MemAccounted maxCacheSize (puts ++ [put]) s') :
    HasRoom maxCacheSize s put := by
  by_contra hroom
  obtain ⟨habsent, hfull, hnonempty⟩ : getMemory s put.sha1name = none ∧
      maxCacheSize.toInt < s.cacheSize + entrySize put.block.length ∧
        (s.fifo = [] → 2 ^ 30 ≤ entrySize put.block.length) := by
    simp only [HasRoom, not_or, not_not, not_and, not_le, not_lt] at hroom
    exact hroom
  obtain ⟨s₁, hcheck, _, rfl⟩ := putMemory_absent habsent h
  obtain ⟨hcons₁, victims, m, hsize, hcache, hevict⟩ := checkCache_ok hcons hcheck
  have hbefore := hacc.cacheSize_eq
  rw [hcons.entriesSize_eq] at hbefore
  have hafter := hacc'.cacheSize_eq
  have hlt := wrapInt_lt (s₁.cacheSize + wrapInt (entrySize put.block.length))
  obtain ⟨m₁, hm₁⟩ := wrapInt_exists (entrySize put.block.length)
  obtain ⟨m₂, hm₂⟩ := wrapInt_exists (s₁.cacheSize + wrapInt (entrySize put.block.length))
  simp only [entriesSize_cons, hcons₁.entriesSize_eq] at hafter
  have hvictims := length_le_keysSize victims
  have hbound := hcons.cacheSize_lt
  have hpos : 72 ≤ entrySize put.block.length := Nat.le_add_right _ _
  have hcount : keysSize victims ≤ keysSize s.fifo := hsize ▸ Nat.le_add_left _ _
  have hnone : victims.length = 0 := by
    apply eq_zero_of_multiple (m := -(m + m₁ + m₂))
    · have hsize' : (keysSize s₁.fifo : Int) + keysSize victims = keysSize s.fifo := by exact_mod_cast hsize
      simp only [sizeofCacheValue] at hcache
      push_cast at hafter hcache
      linarith only [hafter, hcache, hm₁, hm₂, hsize', hbefore]
    · have hint : (keysSize s.fifo : Int) < 2 ^ 31 := hbefore ▸ hbound
      have hnat : keysSize s.fifo < 2 ^ 31 := by exact_mod_cast hint
      linarith only [hnat, hcount, hvictims]
  have hfits : s.cacheSize + entrySize put.block.length < 2 ^ 31 := by
    have hzero : victims = [] := List.length_eq_zero_iff.mp hnone
    rw [hzero, keysSize_nil, Nat.add_zero] at hsize
    rw [hafter, hsize] at hlt
    rw [hbefore]
    push_cast at hlt
    linarith only [hlt]
  have hsize₀ : 0 ≤ s.cacheSize := hbefore ▸ Int.natCast_nonneg _
  have hentry₀ : (0 : Int) ≤ entrySize put.block.length := Int.natCast_nonneg _
  have hentry : (entrySize put.block.length : Int) < 2 ^ 31 := by linarith only [hfits, hsize₀]
  rw [wrapInt_of_lt (by linarith only [hentry₀]) hentry, wrapInt_of_lt (by linarith only [hentry₀, hsize₀]) hfits] at hevict
  obtain ⟨htarget, hsome⟩ := hevict hfull
  obtain ⟨hsmall, htwice⟩ := twice_pos (Nat.lt_of_lt_of_le (by decide) hpos) (by exact_mod_cast hentry) htarget
  have hempty : s.fifo = [] := by
    by_contra hne
    exact hsome htwice hne (List.length_eq_zero_iff.mp hnone)
  exact absurd hsmall (Nat.not_lt.mpr (hnonempty hempty))

end Step

theorem putMemories_append {maxCacheSize : BitVec 32} {puts : List MemPut} {put : MemPut} {s : MemCache} :
    putMemories maxCacheSize (puts ++ [put]) s =
      putMemories maxCacheSize puts s >>= fun s => putMemory maxCacheSize.toInt s put.sha1name put.block := by
  rw [putMemories, List.foldlM_append]
  simp only [List.foldlM_cons, List.foldlM_nil, bind_pure]
  rfl

theorem emptyMemCache_accounted (maxCacheSize : BitVec 32) : MemAccounted maxCacheSize [] emptyMemCache where
  numKeys_table := rfl
  numKeys_fifo := rfl
  cacheSize_eq := rfl
  names_iff := fun _ => Iff.rfl
  fifo_nodup := List.nodup_nil
  table_nodup := List.nodup_nil
  bounded := fun hne => absurd rfl hne

/-- The counters of the memory cache are the ones of its entries in every state of a run exactly when no call of the run takes an
entry out. -/
theorem memory_accounts_iff (maxCacheSize : BitVec 32) (puts : List MemPut) :
    (∀ k ≤ puts.length, ∃ s, putMemories maxCacheSize (puts.take k) emptyMemCache = .ok s ∧ MemAccounted maxCacheSize (puts.take k) s) ↔
      ∀ (k : Nat) (hk : k < puts.length) (s : MemCache), putMemories maxCacheSize (puts.take k) emptyMemCache = .ok s →
        HasRoom maxCacheSize s puts[k] := by
  have hsucc : ∀ k (hk : k < puts.length), puts.take (k + 1) = puts.take k ++ [puts[k]] := fun k hk => List.take_succ_eq_append_getElem hk
  constructor
  · intro hall k hk s hrun
    obtain ⟨s₀, hrun₀, hacc⟩ := hall k hk.le
    obtain ⟨s', hrun', hacc'⟩ := hall (k + 1) hk
    cases hrun.symm.trans hrun₀
    rw [hsucc k hk] at hrun' hacc'
    rw [putMemories_append, hrun, ok_bind] at hrun'
    exact hasRoom_of_accounted (putMemories_consistent emptyMemCache_consistent hrun) hacc hrun' hacc'
  · intro hroom k hk
    induction k with
    | zero => exact ⟨emptyMemCache, rfl, emptyMemCache_accounted maxCacheSize⟩
    | succ k ih =>
        obtain ⟨s, hrun, hacc⟩ := ih (Nat.le_of_succ_le hk)
        have hstart : puts.take k = [] → s = emptyMemCache := by
          intro hnil
          rw [hnil] at hrun
          cases hrun
          rfl
        obtain ⟨s', hput, hacc'⟩ :=
          putMemory_accounted (putMemories_consistent emptyMemCache_consistent hrun) hacc hstart (hroom k hk s hrun)
        refine ⟨s', ?_, ?_⟩
        · rw [hsucc k hk, putMemories_append, hrun, ok_bind, hput]
        · rw [hsucc k hk]
          exact hacc'

/-- Two puts of one block under two names, into a cache of one megabyte: the second one takes the first entry out. -/
theorem putMemory_twice {name name' : Sha1Name} (hne : name' ≠ name) {block : Bytes} (hlength : block.length = 600000) :
    (putMemory 1048576 emptyMemCache name block >>= fun s => putMemory 1048576 s name' block) =
      .ok ⟨1, 600088, [(name', ⟨block, 1⟩)], [⟨name', 600000⟩]⟩ := by
  have hfirst : putMemory 1048576 emptyMemCache name block = .ok ⟨1, 600072, [(name, ⟨block, 1⟩)], [⟨name, 600000⟩]⟩ := by
    simp [putMemory, getMemory, emptyMemCache, checkCache, putHT, entrySize, sizeofCacheKey, sizeofCacheValue, hlength, wrapInt_of_lt]
  have hpick : pickVictims ⟨1, 600072, [(name, ⟨block, 1⟩)], [⟨name, 600000⟩]⟩ 1200144 [] [⟨name, 600000⟩] = .ok [⟨name, 600000⟩] := by
    simp [pickVictims, getMemory]
  have hremove : removeVictims [⟨name, 600000⟩] ⟨1, 600072, [(name, ⟨block, 1⟩)], [⟨name, 600000⟩]⟩ = .ok ⟨0, 16, [], []⟩ := by
    simp [removeVictims, removeHT, wrapInt_of_lt, sizeofCacheKey]
  have hsize : wrapInt (entrySize block.length) = 600072 := by
    simp [entrySize, sizeofCacheKey, sizeofCacheValue, hlength, wrapInt_of_lt]
  have hcheck : checkCache 1048576 600072 ⟨1, 600072, [(name, ⟨block, 1⟩)], [⟨name, 600000⟩]⟩ = .ok ⟨0, 16, [], []⟩ := by
    have hfull : ¬ wrapInt (600072 + 600072) ≤ 1048576 := by simp [wrapInt_of_lt]
    have htarget : wrapInt (600072 * 2) = 1200144 := by simp [wrapInt_of_lt]
    rw [checkCache, if_neg hfull]
    dsimp only
    rw [htarget, check_of (by decide), ok_bind, hpick, ok_bind, hremove]
  have habsent : getMemory ⟨1, 600072, [(name, ⟨block, 1⟩)], [⟨name, 600000⟩]⟩ name' = none := by
    have hsearch : (name' == name) = false := by simpa using hne
    simp [getMemory, List.lookup_cons, hsearch]
  rw [hfirst, ok_bind, putMemory, if_neg (not_not.mpr habsent)]
  dsimp only
  rw [hsize, hcheck, ok_bind]
  simp [putHT, hlength, wrapInt_of_lt]

/-- A put of a block of 600000 bytes under a name. -/
def largePut (name : Sha1Name) (block : Bytes) (hlength : block.length = 600000) : MemPut :=
  ⟨name, block, hlength ▸ by decide⟩

/-- After two puts of 600000 bytes a cache of one megabyte holds one entry of 600072 bytes and counts 600088. -/
theorem memory_accounts_drift :
    ∃ (block : Bytes) (hlength : block.length = 600000) (s : MemCache),
      putMemories (BitVec.ofNat 32 (1024 * 1024))
        [largePut default block hlength, largePut ⟨List.replicate 20 1, rfl⟩ block hlength] emptyMemCache = .ok s ∧
      s.cacheSize = 600088 ∧ entriesSize s.memHt = 600072 ∧
      ¬ MemAccounted (BitVec.ofNat 32 (1024 * 1024))
        [largePut default block hlength, largePut ⟨List.replicate 20 1, rfl⟩ block hlength] s := by
  obtain ⟨block, hlength⟩ : ∃ block : Bytes, block.length = 600000 := ⟨List.replicate 600000 0, List.length_replicate⟩
  have hmax : (BitVec.ofNat 32 (1024 * 1024)).toInt = 1048576 := by decide
  have hsum : ∀ name : Sha1Name, entriesSize [(name, ⟨block, 1⟩)] = 600072 := by
    intro name
    simp [entriesSize, entrySize, sizeofCacheKey, sizeofCacheValue, hlength]
  have hne : (⟨List.replicate 20 1, rfl⟩ : Sha1Name) ≠ default := by decide
  refine ⟨block, hlength, ⟨1, 600088, [(⟨List.replicate 20 1, rfl⟩, ⟨block, 1⟩)], [⟨⟨List.replicate 20 1, rfl⟩, 600000⟩]⟩,
    ?_, rfl, hsum _, ?_⟩
  · rw [putMemories, hmax, ← putMemory_twice hne hlength]
    simp only [largePut, List.foldlM_cons, List.foldlM_nil, bind_pure]
  · intro hacc
    have hsize := hacc.cacheSize_eq
    rw [hsum] at hsize
    exact absurd hsize (by simp)

end BeagleCache

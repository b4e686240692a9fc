import BeagleCache.MrcBlock

/-! The static tables of `DoPreMRC`. `rabinBoundaries` is sized for the number of boundaries random data
has; how many there are is decided by the content. The tables are left exactly when more positions than
`g_ChunkSize` match the small mask before the large mask matches, and a run of one byte can do that: once
the window is full of it the fingerprint stays the same. -/

namespace BeagleCache

open Tiling

/-- The bytes a scan reads. -/
def scannedBytes (minSize maxSize : Nat) (psrc : Bytes) : Bytes :=
  ((psrc.take maxChunkSize).take maxSize).drop minSize

/-- The positions where the small mask matches and no earlier one matches the large mask. -/
def boundaryPositions (minChunkSize chunkSize : Nat) (fs : List U64) : List Nat :=
  (List.range fs.length).filter fun p =>
    matchesSize (fs.getD p 0) minChunkSize && (List.range p).all fun q => !matchesSize (fs.getD q 0) chunkSize

/-- No call of `GetRabinChunkSizeEx` or `DoPreMRC` leaves the tables: the boundaries fit
`rabinBoundaries`, the names fit `pNames`, and no access is out of bounds. -/
structure WithinTables (cfg : Config) (table : NameTable) (rctx : RabinCtx) (psrc : Bytes) : Prop where
  boundaries_le : ∀ minMask maxMask n bs rctx', getMRCMask cfg.minChunkSize = .ok minMask →
    getMRCMask cfg.chunkSize = .ok maxMask →
    getRabinChunkSizeEx rctx psrc (min psrc.length maxChunkSize) minMask maxMask true = .ok (n, bs, rctx') →
    bs.length ≤ cfg.chunkSize
  names_le : ∀ r, doPreMRC cfg table rctx psrc = .ok r → r.pNames.length ≤ cfg.maxNames
  no_overrun : doPreMRC cfg table rctx psrc ≠ .error .overrun

theorem boundaryPositions_cons (minChunkSize chunkSize : Nat) (f : U64) (fs : List U64) :
    (boundaryPositions minChunkSize chunkSize (f :: fs)).length =
      (if matchesSize f minChunkSize then 1 else 0) +
        (if matchesSize f chunkSize then 0 else (boundaryPositions minChunkSize chunkSize fs).length) := by
  unfold boundaryPositions
  rw [List.length_cons, List.range_succ_eq_map, List.filter_cons, List.filter_map]
  have hsucc : ((fun p => matchesSize ((f :: fs).getD p 0) minChunkSize &&
        (List.range p).all fun q => !matchesSize ((f :: fs).getD q 0) chunkSize) ∘ Nat.succ) =
      fun p => !matchesSize f chunkSize && (matchesSize (fs.getD p 0) minChunkSize &&
        (List.range p).all fun q => !matchesSize (fs.getD q 0) chunkSize) := by
    funext p
    simp only [Function.comp_apply, Nat.succ_eq_add_one, List.getD_cons_succ, List.range_succ_eq_map, List.all_cons,
      List.getD_cons_zero, List.all_map]
    rw [Bool.and_left_comm]
    rfl
  rw [hsucc]
  cases hmin : matchesSize f minChunkSize <;> cases hmax : matchesSize f chunkSize <;> simp [hmin, Nat.add_comm]

theorem scan_length {minMask maxMask : BitVec 32} {minChunkSize chunkSize : Nat} (hne : maxMask ≠ 0)
    (hmin : ∀ f, matchesMask f minMask = matchesSize f minChunkSize)
    (hmax : ∀ f, matchesMask f maxMask = matchesSize f chunkSize) (p : Nat) (fs : List U64) :
    (scan minMask maxMask p fs).length = (boundaryPositions minChunkSize chunkSize fs).length := by
  induction fs generalizing p with
  | nil => rfl
  | cons f fs ih =>
      rw [scan, boundaryPositions_cons, List.length_append, hmin, hmax]
      congr 1
      · split <;> rfl
      · by_cases hmatch : matchesSize f chunkSize
        · rw [if_pos ⟨hne, hmatch⟩, if_pos hmatch, List.length_nil]
        · rw [if_neg (by simp [hmatch]), if_neg hmatch, ih]

section Tables

variable {cfg : Config} {window minSize maxSize : Nat} {psrc : Bytes}

/-- The boundaries fit their table exactly when the matching positions do. -/
theorem blockBoundaries_length_le (hcfg : cfg.Sized) :
    (blockBoundaries cfg window minSize maxSize psrc).length ≤ cfg.chunkSize ↔
      (boundaryPositions cfg.minChunkSize cfg.chunkSize
        (fingers window (scannedBytes minSize maxSize psrc))).length ≤ cfg.chunkSize := by
  have hlen := scan_length hcfg.mask_ne_zero hcfg.matchesMask_minChunkSize hcfg.matchesMask_chunkSize minSize
    (fingers window (scannedBytes minSize maxSize psrc))
  have hge := hcfg.chunkSize_ge
  rw [← hlen, blockBoundaries, chunkBoundaries]
  simp only [scannedBytes]
  split
  · rename_i hnil
    rw [hnil, List.length_nil, List.length_singleton]
    omega
  · exact Iff.rfl

theorem levelNames_names_length (table : NameTable) (psrc : Bytes) (level index : Nat) (levels : List (List (Nat × Nat))) :
    ((levelNames table psrc level index levels).flatMap Prod.snd).length = (levels.map List.length).sum := by
  induction levels generalizing level index with
  | nil => rfl
  | cons L levels ih => simp [levelNames, ih]

/-- Each level has at most as many names as there are boundaries. -/
theorem blockLevels_level_le {L : List (Nat × Nat)} (hL : L ∈ blockLevels cfg window minSize maxSize psrc) :
    L.length ≤ (blockBoundaries cfg window minSize maxSize psrc).length := by
  have hlen := cutLevels_length_le L hL
  have hmark := congrArg List.length (markLast_fst (blockBoundaries cfg window minSize maxSize psrc))
  rw [List.length_map] at hmark
  omega

theorem blockLevels_names_le (hcfg : cfg.Sized)
    (hfit : (blockBoundaries cfg window minSize maxSize psrc).length ≤ cfg.chunkSize) :
    ((blockLevels cfg window minSize maxSize psrc).map List.length).sum ≤ cfg.maxNames := by
  have hle : ∀ n ∈ (blockLevels cfg window minSize maxSize psrc).map List.length, n ≤ cfg.chunkSize := by
    intro n hn
    obtain ⟨L, hL, rfl⟩ := List.mem_map.mp hn
    exact (blockLevels_level_le hL).trans hfit
  have hsum := List.sum_le_card_nsmul _ _ hle
  rw [List.length_map, blockLevels_length window minSize maxSize psrc hcfg, smul_eq_mul, Nat.mul_comm] at hsum
  exact hsum

/-- Without any data the scan reports length 0 and the first assertion stops the call. -/
theorem doPreMRC_empty (hcfg : cfg.Sized) (hlt : cfg.chunkSize < 128 * 1024) {rctx : RabinCtx}
    (hctx : rctx.Ready window minSize maxSize) (table : NameTable) (hempty : psrc = [] ∨ maxSize = 0) :
    doPreMRC cfg table rctx psrc = .error .assertion := by
  obtain ⟨rctx', hscan, -⟩ := blockScan hcfg hctx psrc
  have hbs : blockBoundaries cfg window minSize maxSize psrc = [⟨0, 0⟩] := by
    rcases hempty with rfl | rfl <;>
      simp [blockBoundaries, chunkBoundaries, fingers, rollAll, scan]
  have hsize : blockSize cfg window minSize maxSize psrc = 0 := by rw [blockSize, hbs]; rfl
  have hge := hcfg.chunkSize_ge
  unfold doPreMRC
  rw [if_neg (by decide), (hcfg.masks_eq hlt).1, (hcfg.masks_eq hlt).2]
  simp only [Run.ok_bind, hscan]
  rw [inBounds_of (by rw [hbs]; simp; omega), hsize]
  rfl

/-- The tables hold the names of a buffer exactly when at most `g_ChunkSize` of the positions it is
scanned at match the small mask. -/
theorem withinTables_iff (hcfg : cfg.Sized) (hlt : cfg.chunkSize < 128 * 1024) {rctx : RabinCtx}
    (hctx : rctx.Ready window minSize maxSize) (table : NameTable) (psrc : Bytes) :
    WithinTables cfg table rctx psrc ↔
      (boundaryPositions cfg.minChunkSize cfg.chunkSize
        (fingers window (scannedBytes minSize maxSize psrc))).length ≤ cfg.chunkSize := by
  obtain ⟨rctx', hscan, -⟩ := blockScan hcfg hctx psrc
  obtain ⟨hminMask, hmaxMask⟩ := hcfg.masks_eq hlt
  rw [← blockBoundaries_length_le hcfg]
  constructor
  · intro h
    exact h.boundaries_le _ _ _ _ _ hminMask hmaxMask hscan
  · intro hfit
    refine ⟨?_, ?_, ?_⟩
    · intro minMask maxMask n bs rctx'' hmin hmax hrun
      rw [hminMask] at hmin
      rw [hmaxMask] at hmax
      cases hmin
      cases hmax
      rw [hscan] at hrun
      cases hrun
      exact hfit
    · intro r hr
      obtain ⟨-, hsrc, hmax, -⟩ := doPreMRC_ok hcfg hctx hr
      obtain ⟨rctx'', heq, -⟩ := doPreMRC_eq hcfg hlt hctx table hsrc hmax hfit
      rw [heq] at hr
      cases hr
      rw [preMRCOf, levelNames_names_length]
      exact blockLevels_names_le hcfg hfit
    · by_cases hempty : psrc = [] ∨ maxSize = 0
      · rw [doPreMRC_empty hcfg hlt hctx table hempty]
        simp
      · rw [not_or] at hempty
        obtain ⟨rctx'', heq, -⟩ := doPreMRC_eq hcfg hlt hctx table hempty.1 (by omega) hfit
        rw [heq]
        simp

end Tables

theorem withinTables_iff_sample :
    ∃ rctx, startRabinCtx sampleConfig = .ok rctx ∧ WithinTables sampleConfig default rctx sampleData := by
  obtain ⟨rctx, hrctx⟩ : ∃ rctx, startRabinCtx sampleConfig = .ok rctx := ⟨_, rfl⟩
  have hready := (RabinCtx.Used.init hrctx).ready (by decide)
  have hlen := congrArg List.length sampleData_boundaries
  rw [List.length_map] at hlen
  have hfit := (blockBoundaries_length_le sampleConfig_sized).mp (hlen.trans_le (by decide))
  exact ⟨rctx, hrctx, (withinTables_iff sampleConfig_sized (by decide) hready default sampleData).mpr hfit⟩

/-! ## Runs of one byte -/

theorem rollAll_append (window : Nat) (s : U64 × List Byte) (xs ys : Bytes) :
    rollAll window s (xs ++ ys) = rollAll window s xs ++ rollAll window (xs.foldl (roll window) s) ys := by
  induction xs generalizing s with
  | nil => rfl
  | cons x xs ih => simp [rollAll, ih]

/-- A state that a byte does not change gives the same fingerprint for as long as the byte repeats. -/
theorem rollAll_fixed {window : Nat} {s : U64 × List Byte} {b : Byte} (h : roll window s b = s) (n : Nat) :
    rollAll window s (List.replicate n b) = List.replicate n s.1 := by
  induction n with
  | zero => rfl
  | succ n ih => rw [List.replicate_succ, rollAll, h, ih, List.replicate_succ]

theorem boundaryPositions_append_le (minChunkSize chunkSize : Nat) {xs : List U64} (ys : List U64)
    (hxs : ∀ f ∈ xs, matchesSize f chunkSize = false) :
    (boundaryPositions minChunkSize chunkSize ys).length ≤
      (boundaryPositions minChunkSize chunkSize (xs ++ ys)).length := by
  induction xs with
  | nil => exact le_refl _
  | cons x xs ih =>
      rw [List.cons_append, boundaryPositions_cons, hxs x (by simp)]
      have := ih fun f hf => hxs f (List.mem_cons_of_mem x hf)
      simp only [Bool.false_eq_true, if_false]
      omega

theorem boundaryPositions_replicate {minChunkSize chunkSize : Nat} {f : U64} (hmin : matchesSize f minChunkSize = true)
    (hmax : matchesSize f chunkSize = false) (n : Nat) :
    (boundaryPositions minChunkSize chunkSize (List.replicate n f)).length = n := by
  induction n with
  | zero => rfl
  | succ n ih =>
      rw [List.replicate_succ, boundaryPositions_cons, hmin, hmax, ih]
      simp [Nat.add_comm]

/-- A long run of a byte whose window matches the small mask alone has a boundary at every byte. -/
theorem boundaryPositions_run {window minChunkSize chunkSize : Nat} {b : Byte} {s : U64 × List Byte}
    (hfill : (List.replicate window b).foldl (roll window) (0, List.replicate window 0) = s)
    (hfixed : roll window s b = s) (hmin : matchesSize s.1 minChunkSize = true)
    (hmax : matchesSize s.1 chunkSize = false)
    (hstart : ∀ f ∈ fingers window (List.replicate window b), matchesSize f chunkSize = false) (n : Nat) :
    n ≤ (boundaryPositions minChunkSize chunkSize (fingers window (List.replicate (window + n) b))).length := by
  have hsplit : fingers window (List.replicate (window + n) b) =
      fingers window (List.replicate window b) ++ List.replicate n s.1 := by
    rw [List.replicate_add, fingers, rollAll_append, hfill, rollAll_fixed hfixed, fingers]
  rw [hsplit]
  calc n = (boundaryPositions minChunkSize chunkSize (List.replicate n s.1)).length :=
        (boundaryPositions_replicate hmin hmax n).symm
    _ ≤ _ := boundaryPositions_append_le minChunkSize chunkSize _ hstart

/-- The state of the window once it is full of the byte 2. -/
def fullOfTwos : U64 × List Byte := (0x761f94b79ea9753f#64, List.replicate 16 2)

theorem twos_run {n : Nat} (hn : 16 ≤ n) :
    n ≤ 16 + (boundaryPositions 64 1024 (fingers 16 (List.replicate n 2))).length := by
  have hfill : (List.replicate 16 (2 : Byte)).foldl (roll 16) (0, List.replicate 16 0) = fullOfTwos := by decide +kernel
  have hfixed : roll 16 fullOfTwos 2 = fullOfTwos := by decide +kernel
  have hall : (fingers 16 (List.replicate 16 2)).all (fun f => !matchesSize f 1024) = true := by decide +kernel
  have hstart : ∀ f ∈ fingers 16 (List.replicate 16 2), matchesSize f 1024 = false := by
    intro f hf
    simpa using List.all_eq_true.mp hall f hf
  obtain ⟨k, rfl⟩ := Nat.exists_eq_add_of_le hn
  exact Nat.add_le_add_left (boundaryPositions_run hfill hfixed (by decide +kernel) (by decide +kernel) hstart k) 16

theorem scannedBytes_replicate {n maxSize : Nat} (hmax : n ≤ maxSize) (hchunk : n ≤ maxChunkSize) (b : Byte) :
    scannedBytes 0 maxSize (List.replicate n b) = List.replicate n b := by
  rw [scannedBytes, List.drop_zero, List.take_take, List.take_of_length_le (by simp; omega)]

/-- With the default configuration 1100 bytes of value 2 have more boundaries than `rabinBoundaries` has
entries. -/
theorem run_of_twos_leaves_tables :
    ∃ rctx, startRabinCtx {} = .ok rctx ∧ ¬ WithinTables {} default rctx (List.replicate 1100 2) := by
  have hcfg : Config.Sized {} := ⟨by decide, by decide, by decide, 2, rfl⟩
  obtain ⟨rctx, hrctx⟩ : ∃ rctx, startRabinCtx {} = .ok rctx := ⟨_, rfl⟩
  have hready := (RabinCtx.Used.init hrctx).ready (by decide)
  refine ⟨rctx, hrctx, ?_⟩
  intro h
  obtain ⟨rctx', hscan, -⟩ := blockScan hcfg hready (List.replicate 1100 2)
  obtain ⟨hminMask, hmaxMask⟩ := hcfg.masks_eq (by decide)
  have hle := (blockBoundaries_length_le hcfg).mp (h.boundaries_le _ _ _ _ _ hminMask hmaxMask hscan)
  rw [waproxMrcMin, scannedBytes_replicate (by decide) (by decide)] at hle
  have hrun : 1100 ≤ 16 + (boundaryPositions 64 1024 (fingers 16 (List.replicate 1100 2))).length :=
    twos_run (by decide)
  change (boundaryPositions 64 1024 (fingers 16 (List.replicate 1100 2))).length ≤ 1024 at hle
  omega

end BeagleCache

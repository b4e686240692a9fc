import BeagleCache.MrcLevels

/-! The block `DoPreMRC` cuts off a buffer. When the boundaries of the scan fit `rabinBoundaries`, the
call returns: its levels depend on the bytes of the block and on nothing else, so the receiver that
chunks the block again finds the same names. The boundaries of some contents do not fit. -/

namespace BeagleCache

open Tiling

/-! ## The sizes of the levels -/

theorem levelSizes_length {minChunkSize numMRCWays chunkSize fuel : Nat} (fuel' : Nat) (hmin : 0 < minChunkSize)
    (hways : 1 < numMRCWays) (hle : minChunkSize ≤ chunkSize) (hfuel : chunkSize < fuel)
    (hfuel' : chunkSize < fuel') :
    (levelSizes minChunkSize numMRCWays fuel chunkSize).length =
      levelsBelow minChunkSize numMRCWays fuel' chunkSize + 1 := by
  induction fuel generalizing chunkSize fuel' with
  | zero => omega
  | succ fuel ih =>
      cases fuel' with
      | zero => omega
      | succ fuel' =>
          have hdiv : chunkSize / numMRCWays < chunkSize := Nat.div_lt_self (by omega) hways
          rw [levelSizes, if_neg (by omega), if_neg (by omega), List.length_cons, levelsBelow]
          by_cases hlast : chunkSize / numMRCWays < minChunkSize
          · rw [if_pos hlast]
            cases fuel with
            | zero => omega
            | succ fuel => rw [levelSizes, if_pos hlast, List.length_nil]
          · rw [if_neg hlast, ih fuel' (by omega) (by omega) (by omega)]

theorem levelSizes_head? {minChunkSize numMRCWays fuel chunkSize : Nat} :
    ∀ size ∈ (levelSizes minChunkSize numMRCWays fuel chunkSize).head?, size = chunkSize := by
  intro size hsize
  cases fuel with
  | zero => cases hsize
  | succ fuel =>
      rw [levelSizes] at hsize
      split at hsize
      · cases hsize
      · split at hsize <;> cases hsize <;> rfl

/-- With powers of two each level has a weaker mask than the one above. -/
theorem levelSizes_chain {minChunkSize fuel k w : Nat} (hmin : 0 < minChunkSize) (hk : k ≤ 64) :
    (levelSizes minChunkSize (2 ^ w) fuel (2 ^ k)).IsChain (fun a b => ∀ f, matchesSize f a → matchesSize f b) := by
  induction fuel generalizing k with
  | zero => exact List.IsChain.nil
  | succ fuel ih =>
      rw [levelSizes]
      split
      · exact List.IsChain.nil
      · split
        · exact List.IsChain.singleton _
        · by_cases hwk : w ≤ k
          · rw [Nat.pow_div hwk (by omega)]
            rw [List.isChain_cons]
            refine ⟨?_, ih (by omega)⟩
            intro size hsize f hf
            rw [levelSizes_head? size hsize]
            exact matchesSize_mono f (by omega) hk hf
          · have hzero : 2 ^ k / 2 ^ w = 0 :=
              Nat.div_eq_of_lt (Nat.pow_lt_pow_right (by omega) (by omega))
            have hnil : levelSizes minChunkSize (2 ^ w) fuel 0 = [] := by
              cases fuel with
              | zero => rfl
              | succ fuel => rw [levelSizes, if_pos hmin]
            rw [hzero, hnil]
            exact List.IsChain.singleton _

namespace Config.Sized

variable {cfg : Config} (hcfg : cfg.Sized)

include hcfg

theorem min_pos : 0 < cfg.minChunkSize := by
  obtain ⟨k, -, -, hk⟩ := mem_chunkSizes hcfg.minChunkSize_mem
  rw [hk]
  positivity

theorem ways_pos : 0 < cfg.numMRCWays := by
  obtain ⟨w, hw⟩ := hcfg.ways_pow
  rw [hw]
  positivity

theorem chunkSize_ge : 32 ≤ cfg.chunkSize := by
  obtain ⟨k, h5, -, hk⟩ := mem_chunkSizes hcfg.chunkSize_mem
  have : 2 ^ 5 ≤ 2 ^ k := Nat.pow_le_pow_right (by omega) h5
  omega

/-- The levels of the loop are the levels `InitMRCParams` counts. -/
theorem sizes_length :
    (levelSizes cfg.minChunkSize cfg.numMRCWays (cfg.chunkSize + 2) cfg.chunkSize).length = cfg.maxLevel := by
  have hpos := hcfg.ways_pos
  unfold Config.maxLevel
  by_cases hways : 1 < cfg.numMRCWays
  · rw [if_pos hways, levelSizes_length (cfg.chunkSize + 1) hcfg.min_pos hways hcfg.min_le (by omega) (by omega)]
  · have hle := hcfg.min_le
    rw [if_neg hways, levelSizes, if_neg (by omega), if_pos (by omega), List.length_singleton]

theorem sizes_chain :
    (levelSizes cfg.minChunkSize cfg.numMRCWays (cfg.chunkSize + 2) cfg.chunkSize).IsChain
      (fun a b => ∀ f, matchesSize f a → matchesSize f b) := by
  obtain ⟨k, -, h17, hk⟩ := mem_chunkSizes hcfg.chunkSize_mem
  obtain ⟨w, hw⟩ := hcfg.ways_pow
  rw [hw, hk]
  exact levelSizes_chain hcfg.min_pos (by omega)

theorem sizes_cons :
    ∃ sizes, levelSizes cfg.minChunkSize cfg.numMRCWays (cfg.chunkSize + 2) cfg.chunkSize = cfg.chunkSize :: sizes := by
  have hle := hcfg.min_le
  rw [levelSizes, if_neg (by omega)]
  split
  · exact ⟨_, rfl⟩
  · exact ⟨_, rfl⟩

theorem maxLevel_pos : 0 < cfg.maxLevel := by
  obtain ⟨sizes, hsizes⟩ := hcfg.sizes_cons
  rw [← hcfg.sizes_length, hsizes]
  simp

/-- The masks of the two chunk sizes, for every size but the last of the table. -/
theorem masks_eq (hlt : cfg.chunkSize < 128 * 1024) :
    getMRCMask cfg.minChunkSize = .ok (BitVec.ofNat 32 (cfg.minChunkSize - 1)) ∧
      getMRCMask cfg.chunkSize = .ok (BitVec.ofNat 32 (cfg.chunkSize - 1)) := by
  obtain ⟨j, hj5, -, hj⟩ := mem_chunkSizes hcfg.minChunkSize_mem
  obtain ⟨k, hk5, -, hk⟩ := mem_chunkSizes hcfg.chunkSize_mem
  have hle := hcfg.min_le
  have h16 : k ≤ 16 := by
    by_contra hgt
    have : 2 ^ 17 ≤ 2 ^ k := Nat.pow_le_pow_right (by omega) (by omega)
    omega
  have hjk : j ≤ k := (Nat.pow_le_pow_iff_right (by omega : 1 < 2)).mp (by omega)
  rw [hj, hk]
  exact ⟨getMRCMask_pow hj5 (by omega), getMRCMask_pow hk5 h16⟩

theorem chunkSize_lt {mask : BitVec 32} (h : getMRCMask cfg.chunkSize = .ok mask) : cfg.chunkSize < 128 * 1024 := by
  obtain ⟨k, -, h17, hk⟩ := mem_chunkSizes hcfg.chunkSize_mem
  by_contra hge
  have hk17 : k = 17 := by
    by_contra hne
    have : 2 ^ k ≤ 2 ^ 16 := Nat.pow_le_pow_right (by omega) (by omega)
    omega
  rw [hk, hk17, getMRCMask_pow_last] at h
  cases h

theorem matchesMask_chunkSize (f : U64) :
    matchesMask f (BitVec.ofNat 32 (cfg.chunkSize - 1)) = matchesSize f cfg.chunkSize := by
  obtain ⟨k, -, h17, hk⟩ := mem_chunkSizes hcfg.chunkSize_mem
  rw [hk, matchesMask_pow f (by omega)]

theorem matchesMask_minChunkSize (f : U64) :
    matchesMask f (BitVec.ofNat 32 (cfg.minChunkSize - 1)) = matchesSize f cfg.minChunkSize := by
  obtain ⟨k, -, h17, hk⟩ := mem_chunkSizes hcfg.minChunkSize_mem
  rw [hk, matchesMask_pow f (by omega)]

/-- The assertion of the scan: a match of the large mask matches the small one. -/
theorem masks_mono (f : U64) (h : matchesMask f (BitVec.ofNat 32 (cfg.chunkSize - 1))) :
    matchesMask f (BitVec.ofNat 32 (cfg.minChunkSize - 1)) := by
  obtain ⟨j, -, hj17, hj⟩ := mem_chunkSizes hcfg.minChunkSize_mem
  obtain ⟨k, -, hk17, hk⟩ := mem_chunkSizes hcfg.chunkSize_mem
  have hle := hcfg.min_le
  have hjk : j ≤ k := (Nat.pow_le_pow_iff_right (by omega : 1 < 2)).mp (by omega)
  rw [hk, matchesMask_pow f (by omega)] at h
  rw [hj, matchesMask_pow f (by omega)]
  exact matchesSize_mono f hjk (by omega) h

theorem mask_ne_zero : BitVec.ofNat 32 (cfg.chunkSize - 1) ≠ 0 := by
  obtain ⟨k, -, h17, hk⟩ := mem_chunkSizes hcfg.chunkSize_mem
  have hge := hcfg.chunkSize_ge
  have hle : 2 ^ k ≤ 2 ^ 17 := Nat.pow_le_pow_right (by omega) h17
  intro hzero
  have hnat : (BitVec.ofNat 32 (cfg.chunkSize - 1)).toNat = 0 := by rw [hzero]; rfl
  rw [BitVec.toNat_ofNat] at hnat
  omega

end Config.Sized

/-! ## The block -/

/-- The boundaries with the mark `DoPreMRC` starts from, at the last one. -/
def markLast : List RabinBoundary → List (RabinBoundary × Bool)
  | [] => []
  | [b] => [(b, true)]
  | b :: c :: rest => (b, false) :: markLast (c :: rest)

@[simp] theorem markLast_fst (bs : List RabinBoundary) : (markLast bs).map Prod.fst = bs := by
  induction bs using markLast.induct with
  | case1 => rfl
  | case2 b => rfl
  | case3 b c rest ih => rw [markLast, List.map_cons, ih]

theorem markLast_snd (bs : List RabinBoundary) :
    (markLast bs).map Prod.snd = (List.replicate bs.length false).set (bs.length - 1) true := by
  induction bs using markLast.induct with
  | case1 => rfl
  | case2 b => rfl
  | case3 b c rest ih =>
      rw [markLast, List.map_cons, ih]
      simp [List.replicate_succ]

theorem markLast_getLast? (bs : List RabinBoundary) : (markLast bs).getLast? = bs.getLast?.map fun b => (b, true) := by
  induction bs using markLast.induct with
  | case1 => rfl
  | case2 b => rfl
  | case3 b c rest ih =>
      rw [markLast, List.getLast?_cons, ih, List.getLast?_cons_cons]
      simp [List.getLast?_cons]

/-- Only the last boundary is marked. -/
theorem markLast_true {bs : List RabinBoundary} {x : RabinBoundary × Bool} (hx : x ∈ markLast bs) (hreal : x.2 = true) :
    bs.getLast? = some x.1 := by
  induction bs using markLast.induct with
  | case1 => cases hx
  | case2 b =>
      rw [markLast, List.mem_singleton] at hx
      subst hx
      rfl
  | case3 b c rest ih =>
      rw [markLast] at hx
      rcases List.mem_cons.mp hx with rfl | hx
      · cases hreal
      · rw [List.getLast?_cons_cons]
        exact ih hx

section Block

variable (cfg : Config) (window minSize maxSize : Nat) (psrc : Bytes)

/-- The boundaries the scan finds in a buffer. -/
def blockBoundaries : List RabinBoundary :=
  chunkBoundaries window (BitVec.ofNat 32 (cfg.minChunkSize - 1)) (BitVec.ofNat 32 (cfg.chunkSize - 1))
    minSize maxSize (psrc.take maxChunkSize)

/-- The length of the block that is cut off. -/
def blockSize : Nat := ((blockBoundaries cfg window minSize maxSize psrc).getLastD ⟨0, 0⟩).offset

/-- The levels of the block, each chunk as offset and length. -/
def blockLevels : List (List (Nat × Nat)) :=
  cutLevels (levelSizes cfg.minChunkSize cfg.numMRCWays (cfg.chunkSize + 2) cfg.chunkSize)
    (markLast (blockBoundaries cfg window minSize maxSize psrc))

end Block

section PreMRC

variable {cfg : Config} {window minSize maxSize : Nat} {psrc : Bytes}

theorem blockBoundaries_getLast? (cfg : Config) (window minSize maxSize : Nat) (psrc : Bytes) :
    ∃ b, (blockBoundaries cfg window minSize maxSize psrc).getLast? = some b ∧
      b.offset = blockSize cfg window minSize maxSize psrc := by
  have hne : blockBoundaries cfg window minSize maxSize psrc ≠ [] := chunkBoundaries_ne_nil
  refine ⟨(blockBoundaries cfg window minSize maxSize psrc).getLast hne, List.getLast?_eq_some_getLast hne, ?_⟩
  rw [blockSize, List.getLastD_eq_getLast?, List.getLast?_eq_some_getLast hne]
  rfl

theorem blockBoundaries_sorted (cfg : Config) (window minSize : Nat) (hsrc : psrc ≠ []) (hmax : 0 < maxSize) :
    (blockBoundaries cfg window minSize maxSize psrc).Pairwise (fun a b => a.offset < b.offset) ∧
      ∀ b ∈ blockBoundaries cfg window minSize maxSize psrc,
        0 < b.offset ∧ b.offset ≤ min (psrc.take maxChunkSize).length maxSize := by
  refine chunkBoundaries_sorted ?_ hmax
  intro hnil
  rcases List.take_eq_nil_iff.mp hnil with h | h
  · cases h
  · exact hsrc h

theorem blockSize_bounds (cfg : Config) (window minSize : Nat) (hsrc : psrc ≠ []) (hmax : 0 < maxSize) :
    0 < blockSize cfg window minSize maxSize psrc ∧
      blockSize cfg window minSize maxSize psrc ≤ min psrc.length maxChunkSize := by
  obtain ⟨b, hb, hoff⟩ := blockBoundaries_getLast? cfg window minSize maxSize psrc
  have := (blockBoundaries_sorted cfg window minSize hsrc hmax).2 b (List.mem_of_getLast? hb)
  rw [hoff, List.length_take] at this
  omega

theorem blockMarked (cfg : Config) (window minSize : Nat) (hsrc : psrc ≠ []) (hmax : 0 < maxSize) :
    Marked (blockSize cfg window minSize maxSize psrc) 0
      (markLast (blockBoundaries cfg window minSize maxSize psrc)) := by
  obtain ⟨hsorted, hrange⟩ := blockBoundaries_sorted cfg window minSize hsrc hmax
  obtain ⟨last, hlast, hoff⟩ := blockBoundaries_getLast? cfg window minSize maxSize psrc
  have hfst := markLast_fst (blockBoundaries cfg window minSize maxSize psrc)
  refine ⟨?_, ?_, ?_, ?_⟩
  · rw [← hfst, List.pairwise_map] at hsorted
    exact hsorted
  · intro x hx
    have hmem : x.1 ∈ blockBoundaries cfg window minSize maxSize psrc := by
      rw [← hfst]
      exact List.mem_map_of_mem hx
    exact (hrange _ hmem).1
  · intro x hx
    rw [markLast_getLast?, hlast] at hx
    cases hx
    exact ⟨hoff, rfl⟩
  · intro hnil
    have : blockBoundaries cfg window minSize maxSize psrc = [] := by rw [← hfst, hnil]; rfl
    exact absurd this chunkBoundaries_ne_nil

theorem blockMarksMatch (cfg : Config) (window minSize maxSize : Nat) (psrc : Bytes) :
    MarksMatch (blockSize cfg window minSize maxSize psrc) cfg.chunkSize
      (markLast (blockBoundaries cfg window minSize maxSize psrc)) := by
  intro x hx hreal
  obtain ⟨last, hlast, hoff⟩ := blockBoundaries_getLast? cfg window minSize maxSize psrc
  rw [markLast_true hx hreal] at hlast
  cases hlast
  exact .inr hoff

/-- A boundary inside the block does not match the mask of the largest chunk size. -/
theorem blockBoundaries_match (hcfg : cfg.Sized) {b : RabinBoundary}
    (hb : b ∈ blockBoundaries cfg window minSize maxSize psrc) (hmatch : matchesSize b.finger cfg.chunkSize) :
    b.offset = blockSize cfg window minSize maxSize psrc := by
  obtain ⟨last, hlast, hoff⟩ := blockBoundaries_getLast? cfg window minSize maxSize psrc
  have hne : blockBoundaries cfg window minSize maxSize psrc ≠ [] := chunkBoundaries_ne_nil
  have hsplit := List.dropLast_append_getLast hne
  rw [List.getLast?_eq_some_getLast hne, Option.some.injEq] at hlast
  rw [← hsplit] at hb
  rcases List.mem_append.mp hb with hinit | hend
  · -- only a scan that found boundaries has more than one
    have hscan : blockBoundaries cfg window minSize maxSize psrc =
        scan (BitVec.ofNat 32 (cfg.minChunkSize - 1)) (BitVec.ofNat 32 (cfg.chunkSize - 1)) minSize
          (fingers window (((psrc.take maxChunkSize).take maxSize).drop minSize)) := by
      unfold blockBoundaries chunkBoundaries at hinit ⊢
      simp only at hinit ⊢
      split at hinit
      · simp at hinit
      · rename_i hnil
        rw [if_neg hnil]
    rw [hscan] at hinit
    have hfalse := (scan_masks _ _ hcfg.mask_ne_zero _ _).2 b hinit
    rw [hcfg.matchesMask_chunkSize] at hfalse
    rw [hfalse] at hmatch
    cases hmatch
  · rw [List.mem_singleton.mp hend, hlast, hoff]

/-- The root level is the whole block. -/
theorem blockLevels_head (window minSize : Nat) (hcfg : cfg.Sized) (hsrc : psrc ≠ []) (hmax : 0 < maxSize) :
    (blockLevels cfg window minSize maxSize psrc).head? = some [(0, blockSize cfg window minSize maxSize psrc)] := by
  have hmarked := blockMarked cfg window minSize hsrc hmax
  have hpos := (blockSize_bounds cfg window minSize hsrc hmax).1
  obtain ⟨sizes, hsizes⟩ := hcfg.sizes_cons
  have htiles := cutLevel_tiles cfg.chunkSize hmarked
  have hends : ∀ s ∈ (cutLevel cfg.chunkSize (markLast (blockBoundaries cfg window minSize maxSize psrc)) 0).1,
      s.1 + s.2 = blockSize cfg window minSize maxSize psrc := by
    intro s hs
    obtain ⟨x, hx, hoff, hmatch | hend, -⟩ := cutLevel_ends cfg.chunkSize hmarked s hs
    · have hmem : x.1 ∈ blockBoundaries cfg window minSize maxSize psrc := by
        rw [← markLast_fst (blockBoundaries cfg window minSize maxSize psrc)]
        exact List.mem_map_of_mem hx
      rw [← hoff, blockBoundaries_match hcfg hmem hmatch]
    · rw [← hoff, hend]
  unfold blockLevels
  rw [hsizes, cutLevels, List.head?_cons]
  obtain ⟨x, hx, hoff, hlen⟩ := tiles_eq_singleton htiles hpos hends
  obtain ⟨o, n⟩ := x
  rw [hx]
  simp only at hoff hlen
  rw [hoff, hlen, Nat.sub_zero]

theorem blockLevels_length (window minSize maxSize : Nat) (psrc : Bytes) (hcfg : cfg.Sized) :
    (blockLevels cfg window minSize maxSize psrc).length = cfg.maxLevel := by
  rw [blockLevels, cutLevels_length, hcfg.sizes_length]

theorem blockLevels_tiles (hsrc : psrc ≠ []) (hmax : 0 < maxSize) :
    ∀ L ∈ blockLevels cfg window minSize maxSize psrc,
      Tiles Prod.fst Prod.snd 0 (blockSize cfg window minSize maxSize psrc) L :=
  cutLevels_tiles (blockMarked cfg window minSize hsrc hmax)

theorem blockLevels_refines (hcfg : cfg.Sized) (hsrc : psrc ≠ []) (hmax : 0 < maxSize) :
    (blockLevels cfg window minSize maxSize psrc).IsChain Refines := by
  obtain ⟨sizes, hsizes⟩ := hcfg.sizes_cons
  have hchain := hcfg.sizes_chain
  rw [hsizes] at hchain
  unfold blockLevels
  rw [hsizes]
  exact cutLevels_isChain (blockMarked cfg window minSize hsrc hmax)
    (blockMarksMatch cfg window minSize maxSize psrc) hchain

/-- The scan of `DoPreMRC` on a ready context. -/
theorem blockScan (hcfg : cfg.Sized) {rctx : RabinCtx} (hctx : rctx.Ready window minSize maxSize) (psrc : Bytes) :
    ∃ rctx', getRabinChunkSizeEx rctx psrc (min psrc.length maxChunkSize)
        (BitVec.ofNat 32 (cfg.minChunkSize - 1)) (BitVec.ofNat 32 (cfg.chunkSize - 1)) true =
        .ok (blockSize cfg window minSize maxSize psrc, blockBoundaries cfg window minSize maxSize psrc, rctx') ∧
      rctx'.Ready window minSize maxSize := by
  have htake : psrc.take (min psrc.length maxChunkSize) = psrc.take maxChunkSize := by
    by_cases hle : psrc.length ≤ maxChunkSize
    · rw [Nat.min_eq_left hle, List.take_length, List.take_of_length_le hle]
    · rw [Nat.min_eq_right (by omega)]
  have hscan := getRabinChunkSizeEx_eq (hcfg.masks_mono) hctx psrc (min psrc.length maxChunkSize) (by omega)
  rw [htake] at hscan
  exact hscan

/-- What `DoPreMRC` returns for the levels of a block. -/
def preMRCOf (table : NameTable) (psrc : Bytes) (rbSize : Nat) (levels : List (List (Nat × Nat))) (rctx : RabinCtx) :
    PreMRC where
  pNames := (levelNames table psrc 0 0 levels).flatMap Prod.snd
  rbSize := rbSize
  maxLevel := levels.length
  pli := (levelNames table psrc 0 0 levels).map Prod.fst
  rctx := rctx

theorem preMRCOf_names_pos (window minSize : Nat) (table : NameTable) (psrc' : Bytes) (rbSize : Nat) (rctx : RabinCtx) (hcfg : cfg.Sized)
    (hsrc : psrc ≠ []) (hmax : 0 < maxSize) :
    0 < (preMRCOf table psrc' rbSize (blockLevels cfg window minSize maxSize psrc) rctx).pNames.length := by
  have hhead := blockLevels_head window minSize hcfg hsrc hmax
  cases hlevels : blockLevels cfg window minSize maxSize psrc with
  | nil => simp [hlevels] at hhead
  | cons L levels =>
      rw [hlevels, List.head?_cons, Option.some.injEq] at hhead
      simp [preMRCOf, levelNames, hhead, namesOf]

/-- `DoPreMRC` returns the levels of the block whenever the boundaries fit their table. -/
theorem doPreMRC_eq (hcfg : cfg.Sized) (hlt : cfg.chunkSize < 128 * 1024) {rctx : RabinCtx}
    (hctx : rctx.Ready window minSize maxSize) (table : NameTable) (hsrc : psrc ≠ []) (hmax : 0 < maxSize)
    (hfit : (blockBoundaries cfg window minSize maxSize psrc).length ≤ cfg.chunkSize) :
    ∃ rctx', doPreMRC cfg table rctx psrc =
        .ok (preMRCOf table psrc (blockSize cfg window minSize maxSize psrc)
          (blockLevels cfg window minSize maxSize psrc) rctx') ∧
      rctx'.Ready window minSize maxSize := by
  obtain ⟨rctx', hscan, hready⟩ := blockScan hcfg hctx psrc
  obtain ⟨hrb, hrble⟩ := blockSize_bounds cfg window minSize hsrc hmax
  have hne : blockBoundaries cfg window minSize maxSize psrc ≠ [] := chunkBoundaries_ne_nil
  have hnum : 0 < (blockBoundaries cfg window minSize maxSize psrc).length := List.length_pos_of_ne_nil hne
  have hlevelpos := hcfg.maxLevel_pos
  have hnames : cfg.chunkSize ≤ cfg.maxNames := Nat.le_mul_of_pos_right _ hlevelpos
  have hhead := blockLevels_head window minSize hcfg hsrc hmax
  have hloop : levelLoop cfg table (blockSize cfg window minSize maxSize psrc) psrc
      (blockBoundaries cfg window minSize maxSize psrc) (cfg.chunkSize + 2) cfg.chunkSize 0 0
      ((List.replicate (blockBoundaries cfg window minSize maxSize psrc).length false).set
        ((blockBoundaries cfg window minSize maxSize psrc).length - 1) true) =
      .ok (levelNames table psrc 0 0 (blockLevels cfg window minSize maxSize psrc)) := by
    rw [← markLast_snd]
    refine levelLoop_eq hcfg.min_pos hcfg.ways_pos (by omega) (blockMarked cfg window minSize hsrc hmax)
      (markLast_fst _) ?_ (by rw [hcfg.sizes_length]; omega) (by omega) hfit
    intro _ L hL s hs
    rw [← blockLevels, hhead] at hL
    cases hL
    rw [List.mem_singleton.mp hs]
  have hpos := preMRCOf_names_pos window minSize table psrc (blockSize cfg window minSize maxSize psrc) rctx' hcfg
    hsrc hmax
  refine ⟨rctx', ?_, hready⟩
  unfold doPreMRC
  rw [if_neg (by decide), (hcfg.masks_eq hlt).1, (hcfg.masks_eq hlt).2]
  simp only [Run.ok_bind, hscan]
  rw [inBounds_of hfit, check_of hrb, check_of hrble, check_of hnum, inBounds_of (by omega), hloop]
  simp only [Run.ok_bind]
  rw [preMRCOf] at hpos
  rw [check_of hpos]
  simp [preMRCOf]

/-- Where `DoPreMRC` returns, the data was not empty, the configuration has masks and the boundaries fit. -/
theorem doPreMRC_ok (hcfg : cfg.Sized) {rctx : RabinCtx} (hctx : rctx.Ready window minSize maxSize) {table : NameTable}
    {r : PreMRC} (h : doPreMRC cfg table rctx psrc = .ok r) :
    cfg.chunkSize < 128 * 1024 ∧ psrc ≠ [] ∧ 0 < maxSize ∧
      (blockBoundaries cfg window minSize maxSize psrc).length ≤ cfg.chunkSize := by
  unfold doPreMRC at h
  rw [if_neg (by decide)] at h
  obtain ⟨minMask, hmin, h⟩ := Run.bind_eq_ok.mp h
  obtain ⟨maxMask, hmax, h⟩ := Run.bind_eq_ok.mp h
  have hlt := hcfg.chunkSize_lt hmax
  rw [(hcfg.masks_eq hlt).1] at hmin
  rw [(hcfg.masks_eq hlt).2] at hmax
  cases hmin
  cases hmax
  obtain ⟨rctx', hscan, -⟩ := blockScan hcfg hctx psrc
  rw [hscan, Run.ok_bind] at h
  obtain ⟨_, hfit, h⟩ := Run.bind_eq_ok.mp h
  obtain ⟨_, hpos, h⟩ := Run.bind_eq_ok.mp h
  obtain ⟨_, hle, -⟩ := Run.bind_eq_ok.mp h
  rw [check_eq_ok] at hpos hle
  refine ⟨hlt, ?_, ?_, inBounds_eq_ok.mp hfit⟩
  · rintro rfl
    simp only [List.length_nil] at hle
    omega
  · by_contra hzero
    obtain rfl : maxSize = 0 := by omega
    have : blockSize cfg window minSize 0 psrc = 0 := by
      simp [blockSize, blockBoundaries, chunkBoundaries, fingers, rollAll, scan]
    omega

end PreMRC

/-! ## The receiver chunks the block again -/

/-- Two entries describe the same chunk: what the names are, apart from where the bytes are kept. -/
structure SameChunk (a b : OneChunkName) : Prop where
  length_eq : a.length = b.length
  offset_eq : a.offset = b.offset
  level_eq : a.level = b.level
  index_eq : a.index = b.index
  content_eq : a.content = b.content

/-- `ActualPutMissingChunks` up to its assertion that the block is one block again. -/
def rechunkBlock (cfg : Config) (table : NameTable) (rctx : RabinCtx) (buffer : Bytes) : Run PreMRC := do
  let r ← doPreMRC cfg table rctx buffer
  check (0 < r.pNames.length)
  check (r.rbSize = buffer.length)
  return r

theorem namesOf_same {table table' : NameTable} {psrc psrc' : Bytes} {level index : Nat} {spans : List (Nat × Nat)}
    (h : ∀ s ∈ spans, (psrc.drop s.1).take s.2 = (psrc'.drop s.1).take s.2) :
    List.Forall₂ SameChunk (namesOf table psrc level index spans) (namesOf table' psrc' level index spans) := by
  induction spans generalizing index with
  | nil => exact .nil
  | cons s spans ih =>
      refine .cons ⟨rfl, rfl, rfl, rfl, h s (by simp)⟩ (ih ?_)
      exact fun t ht => h t (List.mem_cons_of_mem s ht)

theorem levelNames_same {table table' : NameTable} {psrc psrc' : Bytes} {level index : Nat}
    {levels : List (List (Nat × Nat))}
    (h : ∀ L ∈ levels, ∀ s ∈ L, (psrc.drop s.1).take s.2 = (psrc'.drop s.1).take s.2) :
    List.Forall₂ SameChunk ((levelNames table psrc level index levels).flatMap Prod.snd)
      ((levelNames table' psrc' level index levels).flatMap Prod.snd) := by
  induction levels generalizing level index with
  | nil => exact .nil
  | cons L levels ih =>
      simp only [levelNames, List.flatMap_cons]
      exact List.rel_append (namesOf_same (h L (by simp))) (ih fun L' hL' => h L' (List.mem_cons_of_mem L hL'))

theorem levelNames_pli (table table' : NameTable) (psrc psrc' : Bytes) (level index : Nat)
    (levels : List (List (Nat × Nat))) :
    (levelNames table psrc level index levels).map Prod.fst =
      (levelNames table' psrc' level index levels).map Prod.fst := by
  induction levels generalizing level index with
  | nil => rfl
  | cons L levels ih => simp only [levelNames, List.map_cons, ih]

/-- Cut at its end, the block has the same boundaries. -/
theorem blockBoundaries_take (cfg : Config) (window minSize maxSize : Nat) (psrc : Bytes) :
    blockBoundaries cfg window minSize maxSize (psrc.take (blockSize cfg window minSize maxSize psrc)) =
      blockBoundaries cfg window minSize maxSize psrc := by
  have hcut : (psrc.take (blockSize cfg window minSize maxSize psrc)).take maxChunkSize =
      (psrc.take maxChunkSize).take (blockSize cfg window minSize maxSize psrc) := by
    rw [List.take_take, List.take_take, Nat.min_comm]
  rw [blockBoundaries, hcut]
  exact chunkBoundaries_take

/-- The receiver of a block recomputes the tree of the sender, whatever its own context was used for, and
its assertion on the block's length holds. -/
theorem rechunkBlock_agrees {cfg : Config} (hcfg : cfg.Sized) {bsize window minSize maxSize : Nat} (hwindow : 0 < window)
    {rctx rctx' : RabinCtx} (hctx : rctx.Used bsize window minSize maxSize)
    (hctx' : rctx'.Used bsize window minSize maxSize) (table table' : NameTable) (b : Bytes) (r : PreMRC)
    (h : doPreMRC cfg table rctx b = .ok r) :
    ∃ r', doPreMRC cfg table' rctx' (b.take r.rbSize) = .ok r' ∧ r'.rbSize = r.rbSize ∧
      List.Forall₂ SameChunk r'.pNames r.pNames ∧ r'.maxLevel = r.maxLevel ∧ r'.pli = r.pli ∧
      rechunkBlock cfg table' rctx' (b.take r.rbSize) = .ok r' := by
  obtain ⟨hlt, hsrc, hmax, hfit⟩ := doPreMRC_ok hcfg (hctx.ready hwindow) h
  obtain ⟨rctx₁, heq, -⟩ := doPreMRC_eq hcfg hlt (hctx.ready hwindow) table hsrc hmax hfit
  rw [heq] at h
  cases h
  obtain ⟨hpos, hle⟩ := blockSize_bounds cfg window minSize hsrc hmax
  have hbs := blockBoundaries_take cfg window minSize maxSize b
  have hsize : blockSize cfg window minSize maxSize (b.take (blockSize cfg window minSize maxSize b)) =
      blockSize cfg window minSize maxSize b := by
    rw [blockSize, hbs, ← blockSize]
  have hlevels : blockLevels cfg window minSize maxSize (b.take (blockSize cfg window minSize maxSize b)) =
      blockLevels cfg window minSize maxSize b := by
    rw [blockLevels, hbs, ← blockLevels]
  have hsrc' : b.take (blockSize cfg window minSize maxSize b) ≠ [] := by
    intro hnil
    rcases List.take_eq_nil_iff.mp hnil with h0 | h0
    · omega
    · exact hsrc h0
  obtain ⟨rctx₂, heq', -⟩ := doPreMRC_eq hcfg hlt (hctx'.ready hwindow) table' hsrc' hmax (by rw [hbs]; exact hfit)
  rw [hsize, hlevels] at heq'
  have hsame : List.Forall₂ SameChunk
      (preMRCOf table' (b.take (blockSize cfg window minSize maxSize b)) (blockSize cfg window minSize maxSize b)
        (blockLevels cfg window minSize maxSize b) rctx₂).pNames
      (preMRCOf table b (blockSize cfg window minSize maxSize b) (blockLevels cfg window minSize maxSize b) rctx₁).pNames := by
    apply levelNames_same
    intro L hL s hs
    have hend := (tiles_mem (blockLevels_tiles hsrc hmax L hL) hs).2.1
    rw [List.drop_take, List.take_take, Nat.min_eq_left (by omega)]
  refine ⟨_, heq', rfl, hsame, rfl, levelNames_pli .., ?_⟩
  have hnames : 0 < (preMRCOf table' (b.take (blockSize cfg window minSize maxSize b))
      (blockSize cfg window minSize maxSize b) (blockLevels cfg window minSize maxSize b) rctx₂).pNames.length := by
    exact preMRCOf_names_pos window minSize table' _ _ rctx₂ hcfg hsrc hmax
  have hlen : (preMRCOf table' (b.take (blockSize cfg window minSize maxSize b))
      (blockSize cfg window minSize maxSize b) (blockLevels cfg window minSize maxSize b) rctx₂).rbSize =
      (b.take (blockSize cfg window minSize maxSize b)).length := by
    rw [List.length_take, Nat.min_eq_left (by omega)]
    rfl
  have hrb : (preMRCOf table b (blockSize cfg window minSize maxSize b) (blockLevels cfg window minSize maxSize b)
      rctx₁).rbSize = blockSize cfg window minSize maxSize b := rfl
  rw [rechunkBlock, hrb, heq', Run.ok_bind, check_of hnames, check_of hlen]
  rfl

def sampleConfig : Config := { minChunkSize := 32, chunkSize := 64, numMRCWays := 2 }

/-- Forty bytes with boundaries after 24, 31 and 33 of them; the last ends the block. -/
def sampleData : Bytes := (List.range 40).map fun i => BitVec.ofNat 8 (20 * i + 74)

theorem sampleConfig_sized : sampleConfig.Sized := ⟨by decide, by decide, by decide, 1, rfl⟩

theorem sampleData_boundaries :
    (blockBoundaries sampleConfig waproxRabinWindow waproxMrcMin waproxMrcMax sampleData).map RabinBoundary.offset =
      [24, 31, 33] := by
  decide +kernel

theorem rechunkBlock_agrees_sample : ∃ rctx rctx' r r', startRabinCtx sampleConfig = .ok rctx ∧
    doPreMRC sampleConfig default rctx sampleData = .ok r ∧
    getRabinChunkSizeEx rctx [1, 2, 3] 3 31 63 true = .ok rctx' ∧
    doPreMRC sampleConfig default rctx'.2.2 (sampleData.take r.rbSize) = .ok r' ∧ r'.rbSize = r.rbSize ∧
    List.Forall₂ SameChunk r'.pNames r.pNames ∧ r'.maxLevel = r.maxLevel ∧ r'.pli = r.pli ∧
    rechunkBlock sampleConfig default rctx'.2.2 (sampleData.take r.rbSize) = .ok r' := by
  obtain ⟨rctx, hrctx⟩ : ∃ rctx, startRabinCtx sampleConfig = .ok rctx := ⟨_, rfl⟩
  have hused := RabinCtx.Used.init hrctx
  obtain ⟨rctx', hscan, -⟩ := blockScan sampleConfig_sized (hused.ready (by decide)) [1, 2, 3]
  have hlen := congrArg List.length sampleData_boundaries
  rw [List.length_map] at hlen
  obtain ⟨rctx₁, hpre, -⟩ := doPreMRC_eq sampleConfig_sized (by decide) (hused.ready (by decide)) default
    (by decide) (by decide) (hlen.trans_le (by decide))
  obtain ⟨r', hr'⟩ := rechunkBlock_agrees sampleConfig_sized (by decide) hused (hused.scan hscan) default default
    sampleData _ hpre
  exact ⟨rctx, _, _, r', hrctx, hpre, hscan, hr'⟩

end BeagleCache

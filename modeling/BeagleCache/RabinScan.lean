import BeagleCache.Rabin

/-! The scan for chunk boundaries as a function of the bytes alone. The circular buffer is a queue of
the last bytes, a reset fills it with zeros, so neither the position in the buffer nor anything fed
before the reset is left: a context that `InitRabinCtx` prepared and that was used on any buffers
finds the boundaries of `chunkBoundaries`, and it finds the same ones when the data is cut at the last
of them. -/

namespace BeagleCache

/-- The tables `InitializeRabin` computes for a window of `window` bytes. -/
def rabinTables (window : Nat) : RabinPoly := initializeRabin blankRabinPoly window

/-- A polynomial context with the tables of its window and a position inside the window. -/
structure RabinPoly.Ready (window : Nat) (rp : RabinPoly) : Prop where
  moduloT_eq : rp.moduloT = (rabinTables window).moduloT
  regionT_eq : rp.regionT = (rabinTables window).regionT
  shift_eq : rp.shift = (rabinTables window).shift
  regionSize_eq : rp.regionSize = window
  regionPos_lt : rp.regionPos < window

/-- The rolling step on a queue: the oldest byte leaves, the new byte enters. -/
def roll (window : Nat) (s : U64 × List Byte) (b : Byte) : U64 × List Byte :=
  let finger := s.1 ^^^ (rabinTables window).regionT (s.2.headD 0)
  (((finger <<< 8) ||| b.setWidth 64) ^^^ (rabinTables window).moduloT (finger >>> (rabinTables window).shift).toNat,
    s.2.tail ++ [b])

/-- The fingerprints after each byte. -/
def rollAll (window : Nat) : U64 × List Byte → Bytes → List U64
  | _, [] => []
  | s, b :: rest => (roll window s b).1 :: rollAll window (roll window s b) rest

/-- The fingerprints of a byte string fed after a reset. -/
def fingers (window : Nat) (bs : Bytes) : List U64 := rollAll window (0, List.replicate window 0) bs

/-- The boundaries among fingerprints, the first of which belongs to the byte at offset `p`. -/
def scan (minMask maxMask : BitVec 32) : Nat → List U64 → List RabinBoundary
  | _, [] => []
  | p, f :: fs =>
      (if matchesMask f minMask then [⟨p + 1, f⟩] else []) ++
        (if maxMask ≠ 0 ∧ matchesMask f maxMask then [] else scan minMask maxMask (p + 1) fs)

/-- What `GetRabinChunkSizeEx` finds after a reset, from the bytes alone. -/
def chunkBoundaries (window : Nat) (minMask maxMask : BitVec 32) (minSize maxSize : Nat) (src : Bytes) :
    List RabinBoundary :=
  let fs := fingers window ((src.take maxSize).drop minSize)
  let bs := scan minMask maxMask minSize fs
  if bs = [] then [⟨(src.take maxSize).length, fs.getLastD 0⟩] else bs

@[simp] theorem rollAll_length (window : Nat) (s : U64 × List Byte) (bs : Bytes) :
    (rollAll window s bs).length = bs.length := by
  induction bs generalizing s with
  | nil => rfl
  | cons b rest ih => simp [rollAll, ih]

@[simp] theorem fingers_length (window : Nat) (bs : Bytes) : (fingers window bs).length = bs.length :=
  rollAll_length window _ bs

theorem rollAll_take (window : Nat) (s : U64 × List Byte) (bs : Bytes) (n : Nat) :
    rollAll window s (bs.take n) = (rollAll window s bs).take n := by
  induction bs generalizing s n with
  | nil => simp [rollAll]
  | cons b rest ih =>
      cases n with
      | zero => rfl
      | succ n => simp [rollAll, ih]

/-- A fingerprint depends on the bytes up to it and on no later one. -/
theorem fingers_take (window : Nat) (bs : Bytes) (n : Nat) :
    fingers window (bs.take n) = (fingers window bs).take n :=
  rollAll_take window _ bs n

/-! ## The circular buffer is a queue -/

theorem concatByte_ready {window : Nat} {rp : RabinPoly} (h : rp.Ready window) (finger : U64) (b : Byte) :
    (concatByte rp finger b).2.Ready window where
  moduloT_eq := h.moduloT_eq
  regionT_eq := h.regionT_eq
  shift_eq := h.shift_eq
  regionSize_eq := h.regionSize_eq
  regionPos_lt := by
    have hpos := h.regionPos_lt
    simp only [concatByte, h.regionSize_eq]
    exact Nat.mod_lt _ (by omega)

/-- `ConcatByte` is the rolling step on the queue the circular buffer holds. -/
theorem concatByte_eq_roll {window : Nat} {rp : RabinPoly} (h : rp.Ready window) (finger : U64) (b : Byte) :
    ((concatByte rp finger b).1,
        Ring.queue (concatByte rp finger b).2.regionBuf (concatByte rp finger b).2.regionPos window) =
      roll window (finger, Ring.queue rp.regionBuf rp.regionPos window) b := by
  have hhead : (Ring.queue rp.regionBuf rp.regionPos window).headD 0 = rp.regionBuf rp.regionPos := by
    rw [List.headD_eq_head?_getD, Ring.queue_head? rp.regionBuf h.regionPos_lt]
    rfl
  apply Prod.ext
  · simp only [concatByte, roll, hhead, h.moduloT_eq, h.regionT_eq, h.shift_eq]
  · simp only [concatByte, roll, h.regionSize_eq]
    exact Ring.queue_push rp.regionBuf h.regionPos_lt b

/-- The loop of the scan, as the scan of the fingerprints. The context it leaves is ready again, keeps
its parameters, and holds the last fingerprint when every byte was read. -/
theorem boundaryLoop_eq {window : Nat} {minMask maxMask : BitVec 32}
    (hmask : ∀ f, matchesMask f maxMask → matchesMask f minMask) (rctx : RabinCtx) (p : Nat) (bs : Bytes)
    (h : rctx.rp.Ready window) :
    ∃ rctx', boundaryLoop minMask maxMask rctx p bs =
        .ok (scan minMask maxMask p (rollAll window
          (rctx.finger, Ring.queue rctx.rp.regionBuf rctx.rp.regionPos window) bs), rctx') ∧
      rctx'.rp.Ready window ∧ rctx'.minSize = rctx.minSize ∧ rctx'.maxSize = rctx.maxSize ∧
      (scan minMask maxMask p (rollAll window
          (rctx.finger, Ring.queue rctx.rp.regionBuf rctx.rp.regionPos window) bs) = [] →
        rctx'.finger = (rollAll window
          (rctx.finger, Ring.queue rctx.rp.regionBuf rctx.rp.regionPos window) bs).getLastD rctx.finger) := by
  induction bs generalizing rctx p with
  | nil => exact ⟨rctx, rfl, h, rfl, rfl, fun _ => rfl⟩
  | cons b rest ih =>
      have hroll := concatByte_eq_roll h rctx.finger b
      simp only [boundaryLoop, rollAll, scan, ← hroll]
      by_cases hmax : maxMask ≠ 0 ∧ matchesMask (concatByte rctx.rp rctx.finger b).1 maxMask
      · -- a match of the large mask ends the scan
        have hmin := hmask _ hmax.2
        refine ⟨{ rctx with rp := (concatByte rctx.rp rctx.finger b).2,
                            finger := (concatByte rctx.rp rctx.finger b).1 }, ?_,
          concatByte_ready h rctx.finger b, rfl, rfl, ?_⟩
        · rw [if_pos hmax, if_pos hmax, check_of hmin, List.append_nil]
          rfl
        · intro hnil
          simp [hmin] at hnil
      · obtain ⟨rctx', heq, hready, hmins, hmaxs, hlast⟩ :=
          ih { rctx with rp := (concatByte rctx.rp rctx.finger b).2,
                         finger := (concatByte rctx.rp rctx.finger b).1 } (p + 1)
            (concatByte_ready h rctx.finger b)
        refine ⟨rctx', ?_, hready, hmins, hmaxs, ?_⟩
        · rw [if_neg hmax, if_neg hmax, heq]
          rfl
        · intro hnil
          rw [if_neg hmax] at hnil
          rw [hlast (List.append_eq_nil_iff.mp hnil).2, List.getLastD_cons]

/-- A context that `InitRabinCtx` prepared for a window and sizes, and that any scans used since. -/
structure RabinCtx.Ready (window minSize maxSize : Nat) (rctx : RabinCtx) : Prop where
  rp_ready : rctx.rp.Ready window
  minSize_eq : rctx.minSize = minSize
  maxSize_eq : rctx.maxSize = maxSize

/-- `GetRabinChunkSizeEx` with a reset returns the boundaries of the bytes and a ready context. -/
theorem getRabinChunkSizeEx_eq {window minSize maxSize : Nat} {minMask maxMask : BitVec 32}
    (hmask : ∀ f, matchesMask f maxMask → matchesMask f minMask) {rctx : RabinCtx}
    (h : rctx.Ready window minSize maxSize) (src : Bytes) (srclen : Nat) (hlen : srclen ≤ src.length) :
    ∃ rctx', getRabinChunkSizeEx rctx src srclen minMask maxMask true =
        .ok (((chunkBoundaries window minMask maxMask minSize maxSize (src.take srclen)).getLastD ⟨0, 0⟩).offset,
          chunkBoundaries window minMask maxMask minSize maxSize (src.take srclen), rctx') ∧
      rctx'.Ready window minSize maxSize := by
  obtain ⟨hrp, rfl, rfl⟩ := h
  have hready : (zeroRegionBuf rctx.rp).Ready window := ⟨hrp.1, hrp.2, hrp.3, hrp.4, hrp.5⟩
  have htake : (src.take srclen).take rctx.maxSize = src.take (min srclen rctx.maxSize) := by
    rw [List.take_take, Nat.min_comm]
  have hsrc : (src.take (min srclen rctx.maxSize)).length = min srclen rctx.maxSize := by
    rw [List.length_take]
    omega
  obtain ⟨rctx', heq, hready', hmins', hmaxs', hlast⟩ :=
    boundaryLoop_eq hmask { rctx with finger := 0, rp := zeroRegionBuf rctx.rp } rctx.minSize
      ((src.take (min srclen rctx.maxSize)).drop rctx.minSize) hready
  have hqueue : rollAll window (0, Ring.queue (zeroRegionBuf rctx.rp).regionBuf (zeroRegionBuf rctx.rp).regionPos window) =
      fingers window := by
    funext bs
    simp only [zeroRegionBuf, Ring.queue_const, fingers]
  rw [hqueue] at heq hlast
  refine ⟨rctx', ?_, hready', hmins', hmaxs'⟩
  simp only [getRabinChunkSizeEx, if_true]
  rw [heq, Run.ok_bind]
  simp only [chunkBoundaries, htake, hsrc]
  by_cases hnil : scan minMask maxMask rctx.minSize
      (fingers window ((src.take (min srclen rctx.maxSize)).drop rctx.minSize)) = []
  · rw [if_pos hnil, if_pos hnil, hlast hnil]
    rfl
  · rw [if_neg hnil, if_neg hnil]
    rfl

theorem initRabinCtx_ready {rctx rctx' : RabinCtx} {bsize window minSize maxSize : Nat} (hwindow : 0 < window)
    (h : initRabinCtx rctx bsize window minSize maxSize = .ok rctx') :
    rctx'.Ready window minSize maxSize := by
  obtain ⟨b, _, hret⟩ := Run.bind_eq_ok.mp h
  cases hret
  exact ⟨⟨rfl, rfl, rfl, rfl, hwindow⟩, rfl, rfl⟩

theorem boundaryLoop_ready {window : Nat} {minMask maxMask : BitVec 32} {rctx rctx' : RabinCtx} {p : Nat} {bs : Bytes}
    {found : List RabinBoundary} (h : rctx.rp.Ready window)
    (hloop : boundaryLoop minMask maxMask rctx p bs = .ok (found, rctx')) :
    rctx'.rp.Ready window ∧ rctx'.minSize = rctx.minSize ∧ rctx'.maxSize = rctx.maxSize := by
  induction bs generalizing rctx p found with
  | nil =>
      cases hloop
      exact ⟨h, rfl, rfl⟩
  | cons b rest ih =>
      simp only [boundaryLoop] at hloop
      split at hloop
      · obtain ⟨_, _, hret⟩ := Run.bind_eq_ok.mp hloop
        cases hret
        exact ⟨concatByte_ready h rctx.finger b, rfl, rfl⟩
      · obtain ⟨⟨found', last⟩, hrest, hret⟩ := Run.bind_eq_ok.mp hloop
        cases hret
        have hrec := fun hready => ih hready hrest
        exact hrec (concatByte_ready h rctx.finger b)

/-- A context after `InitRabinCtx` and any number of scans of any data. -/
inductive RabinCtx.Used (bsize window minSize maxSize : Nat) : RabinCtx → Prop
  | init {rctx rctx' : RabinCtx} : initRabinCtx rctx bsize window minSize maxSize = .ok rctx' →
      Used bsize window minSize maxSize rctx'
  | scan {rctx rctx' : RabinCtx} {src : Bytes} {srclen n : Nat} {minMask maxMask : BitVec 32} {reset : Bool}
      {bs : List RabinBoundary} : Used bsize window minSize maxSize rctx →
      getRabinChunkSizeEx rctx src srclen minMask maxMask reset = .ok (n, bs, rctx') →
      Used bsize window minSize maxSize rctx'

theorem RabinCtx.Used.ready {bsize window minSize maxSize : Nat} {rctx : RabinCtx} (hwindow : 0 < window)
    (h : rctx.Used bsize window minSize maxSize) : rctx.Ready window minSize maxSize := by
  induction h with
  | init hinit => exact initRabinCtx_ready hwindow hinit
  | @scan rctx rctx' src srclen n minMask maxMask reset bs _ hscan ih =>
      obtain ⟨⟨found, last⟩, hloop, hret⟩ := Run.bind_eq_ok.mp hscan
      cases hret
      cases reset with
      | true =>
          have hready : (zeroRegionBuf rctx.rp).Ready window :=
            ⟨ih.rp_ready.1, ih.rp_ready.2, ih.rp_ready.3, ih.rp_ready.4, ih.rp_ready.5⟩
          obtain ⟨hrp, hmin, hmax⟩ := boundaryLoop_ready hready hloop
          exact ⟨hrp, hmin.trans ih.minSize_eq, hmax.trans ih.maxSize_eq⟩
      | false =>
          obtain ⟨hrp, hmin, hmax⟩ := boundaryLoop_ready ih.rp_ready hloop
          exact ⟨hrp, hmin.trans ih.minSize_eq, hmax.trans ih.maxSize_eq⟩

/-! ## The boundaries -/

/-- Boundaries lie behind the byte they belong to, in increasing order. -/
theorem scan_sorted (minMask maxMask : BitVec 32) (p : Nat) (fs : List U64) :
    (scan minMask maxMask p fs).Pairwise (fun a b => a.offset < b.offset) ∧
      ∀ b ∈ scan minMask maxMask p fs, p < b.offset ∧ b.offset ≤ p + fs.length := by
  induction fs generalizing p with
  | nil => simp [scan]
  | cons f fs ih =>
      obtain ⟨hsorted, hrange⟩ := ih (p + 1)
      have htail : ∀ b ∈ (if maxMask ≠ 0 ∧ matchesMask f maxMask then [] else scan minMask maxMask (p + 1) fs),
          p + 1 < b.offset ∧ b.offset ≤ p + 1 + fs.length := by
        intro b hb
        split at hb
        · cases hb
        · exact hrange b hb
      have htails : (if maxMask ≠ 0 ∧ matchesMask f maxMask then [] else scan minMask maxMask (p + 1) fs).Pairwise
          (fun a b => a.offset < b.offset) := by
        split
        · exact List.Pairwise.nil
        · exact hsorted
      simp only [scan, List.length_cons]
      constructor
      · rw [List.pairwise_append]
        refine ⟨by split <;> simp, htails, ?_⟩
        intro a ha b hb
        split at ha
        · rw [List.mem_singleton] at ha
          subst ha
          exact (htail b hb).1
        · cases ha
      · intro b hb
        rcases List.mem_append.mp hb with hb | hb
        · split at hb
          · rw [List.mem_singleton] at hb
            subst hb
            simp
          · cases hb
        · have := htail b hb
          omega

/-- Every boundary matches the small mask; the large mask is matched by the last one at most. -/
theorem scan_masks (minMask maxMask : BitVec 32) (hmax : maxMask ≠ 0) (p : Nat) (fs : List U64) :
    (∀ b ∈ scan minMask maxMask p fs, matchesMask b.finger minMask) ∧
      ∀ b ∈ (scan minMask maxMask p fs).dropLast, matchesMask b.finger maxMask = false := by
  induction fs generalizing p with
  | nil => simp [scan]
  | cons f fs ih =>
      obtain ⟨hmin, hlast⟩ := ih (p + 1)
      simp only [scan]
      by_cases hf : matchesMask f minMask <;> by_cases hF : matchesMask f maxMask
      · rw [if_pos hf, if_pos ⟨hmax, hF⟩]
        simp [hf]
      · rw [if_pos hf, if_neg (by simp [hF])]
        constructor
        · intro b hb
          rcases List.mem_append.mp hb with hb | hb
          · rw [List.mem_singleton.mp hb]
            exact hf
          · exact hmin b hb
        · intro b hb
          by_cases hnil : scan minMask maxMask (p + 1) fs = []
          · simp [hnil] at hb
          · rw [List.dropLast_append_of_ne_nil hnil] at hb
            rcases List.mem_append.mp hb with hb | hb
            · rw [List.mem_singleton.mp hb]
              simpa using hF
            · exact hlast b hb
      · rw [if_neg hf, if_pos ⟨hmax, hF⟩]
        simp
      · rw [if_neg hf, if_neg (by simp [hF])]
        exact ⟨hmin, hlast⟩

/-- Cutting the fingerprints right behind the last boundary keeps every boundary. -/
theorem scan_take (minMask maxMask : BitVec 32) (p : Nat) (fs : List U64) (n : Nat)
    (hn : ∀ b ∈ scan minMask maxMask p fs, b.offset ≤ p + n) :
    scan minMask maxMask p (fs.take n) = scan minMask maxMask p fs := by
  induction fs generalizing p n with
  | nil => simp
  | cons f fs ih =>
      cases n with
      | zero =>
          -- a boundary would lie behind `p`
          rw [List.take_zero]
          rcases hscan : scan minMask maxMask p (f :: fs) with _ | ⟨b, bs⟩
          · rfl
          · have hmem : b ∈ scan minMask maxMask p (f :: fs) := by simp [hscan]
            have := hn b hmem
            have := ((scan_sorted minMask maxMask p (f :: fs)).2 b hmem).1
            omega
      | succ n =>
          rw [List.take_succ_cons]
          simp only [scan] at hn ⊢
          congr 1
          split
          · rfl
          · rename_i hF
            apply ih
            intro b hb
            have := hn b (List.mem_append_right _ (by rw [if_neg hF]; exact hb))
            omega

section Boundaries

variable {window minSize maxSize : Nat} {minMask maxMask : BitVec 32} {src : Bytes}

theorem chunkBoundaries_ne_nil : chunkBoundaries window minMask maxMask minSize maxSize src ≠ [] := by
  unfold chunkBoundaries
  simp only
  split
  · simp
  · assumption

/-- The scanned data is the buffer up to the scan's limit. -/
theorem chunkBoundaries_sorted (hsrc : src ≠ []) (hmaxSize : 0 < maxSize) :
    (chunkBoundaries window minMask maxMask minSize maxSize src).Pairwise (fun a b => a.offset < b.offset) ∧
      ∀ b ∈ chunkBoundaries window minMask maxMask minSize maxSize src,
        0 < b.offset ∧ b.offset ≤ min src.length maxSize := by
  obtain ⟨hsorted, hrange⟩ := scan_sorted minMask maxMask minSize
    (fingers window ((src.take maxSize).drop minSize))
  have hpos : 0 < src.length := List.length_pos_of_ne_nil hsrc
  unfold chunkBoundaries
  simp only
  split
  · constructor
    · simp
    · intro b hb
      rw [List.mem_singleton.mp hb]
      simp only [List.length_take]
      omega
  · rename_i hne
    refine ⟨hsorted, ?_⟩
    intro b hb
    have := hrange b hb
    -- a boundary exists, so the scan started inside the data
    have hlt : minSize < (src.take maxSize).length := by
      by_contra hle
      rw [List.drop_eq_nil_of_le (by omega)] at hne
      exact hne rfl
    simp only [fingers_length, List.length_drop, List.length_take] at this hlt
    omega

/-- Cut at its last boundary, the data has the same boundaries. -/
theorem chunkBoundaries_take :
    chunkBoundaries window minMask maxMask minSize maxSize
        (src.take ((chunkBoundaries window minMask maxMask minSize maxSize src).getLastD ⟨0, 0⟩).offset) =
      chunkBoundaries window minMask maxMask minSize maxSize src := by
  obtain ⟨hsorted, hrange⟩ := scan_sorted minMask maxMask minSize
    (fingers window ((src.take maxSize).drop minSize))
  by_cases hnil : scan minMask maxMask minSize (fingers window ((src.take maxSize).drop minSize)) = []
  · -- the only boundary is the end of the data
    have hb : chunkBoundaries window minMask maxMask minSize maxSize src =
        [⟨(src.take maxSize).length, (fingers window ((src.take maxSize).drop minSize)).getLastD 0⟩] := by
      simp only [chunkBoundaries, if_pos hnil]
    have hcut : (src.take (src.take maxSize).length).take maxSize = src.take maxSize := by
      rw [List.take_take, List.length_take]
      by_cases hle : maxSize ≤ src.length
      · rw [Nat.min_eq_left hle, Nat.min_self]
      · rw [List.take_of_length_le (by omega), List.take_of_length_le (by omega)]
    rw [hb]
    simp only [List.getLastD_cons, List.getLastD_nil]
    unfold chunkBoundaries
    simp only [hcut, if_pos hnil]
  · have hb : chunkBoundaries window minMask maxMask minSize maxSize src =
        scan minMask maxMask minSize (fingers window ((src.take maxSize).drop minSize)) := by
      simp only [chunkBoundaries, if_neg hnil]
    obtain ⟨init, last, hsplit⟩ := List.eq_nil_or_concat'
      (scan minMask maxMask minSize (fingers window ((src.take maxSize).drop minSize))) |>.resolve_left hnil
    have hlast := hrange last (by simp [hsplit])
    have hle : ∀ b ∈ scan minMask maxMask minSize (fingers window ((src.take maxSize).drop minSize)),
        b.offset ≤ last.offset := by
      intro b hmem
      rw [hsplit] at hmem hsorted
      rcases List.mem_append.mp hmem with hinit | hend
      · exact le_of_lt ((List.pairwise_append.mp hsorted).2.2 b hinit last (by simp))
      · rw [List.mem_singleton.mp hend]
    have hcut : ((src.take last.offset).take maxSize).drop minSize =
        ((src.take maxSize).drop minSize).take (last.offset - minSize) := by
      rw [List.take_take, Nat.min_comm, ← List.take_take, List.drop_take]
    rw [hb, hsplit]
    simp only [List.getLastD_concat]
    rw [← hsplit]
    unfold chunkBoundaries
    rw [hcut]
    simp only [fingers_take]
    rw [scan_take minMask maxMask minSize _ _ (fun b hmem => by have := hle b hmem; omega), if_neg hnil]

end Boundaries

end BeagleCache

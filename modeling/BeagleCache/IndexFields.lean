import Mathlib.Tactic
import BeagleCache.IndexSets

/-! The place in the log that the index keeps for a way: an offset, and a version and a length that are a `char` each. What
`joinFlow` reads back is what `formDiskBatches` stored exactly for the numbers that a `char` can hold. -/

namespace BeagleCache.Sets

open ByteMemory Store Hcfs Batches Transition

def getFirstBlockOffset (m : Memory) (set matchNum : Nat) : BitVec 32 := load m (logOffsetAt set matchNum) 4

def getFirstBlockVersion (m : Memory) (set matchNum : Nat) : BitVec 32 := (load m (logVersionAt set matchNum) 1).signExtend 32

def getFirstBlockLen (m : Memory) (set matchNum : Nat) : BitVec 32 := (load m (logLenAt set matchNum) 1).signExtend 32

/-- `joinFlow` finds the way, but `checkVersion` or the test of `totalLen` sends it to the server. -/
def JoinFlowMisses (a : Alloc) (m : Memory) (set matchNum : Nat) : Prop :=
  ¬(getFirstBlockVersion m set matchNum = BitVec.ofNat 32 a.presentRemVersion ∨
      getFirstBlockVersion m set matchNum = BitVec.ofNat 32 a.presentRemVersion - 1 ∧
        (BitVec.ofNat 32 (a.presentRemOffsets 0 + threshold)).toInt < (getFirstBlockOffset m set matchNum).toInt) ∨
    (getFirstBlockLen m set matchNum).toInt ≤ 0

/-- The number is the value of a `char`. -/
def FitsChar (x : BitVec 32) : Prop := -128 ≤ x.toInt ∧ x.toInt ≤ 127

instance (x : BitVec 32) : Decidable (FitsChar x) := inferInstanceAs (Decidable (_ ∧ _))

/-! ## What a `char` keeps of an `int` -/

/-- An `int` that was stored in a `char` and read again. -/
theorem toInt_narrow (x : BitVec 32) : ((x.setWidth 8).signExtend 32).toInt = Hoc.toChar x.toInt := by
  have hlow : ((x.setWidth 8).signExtend 32).toInt = (x.toNat : Int).bmod (2 ^ 8) := by
    rw [BitVec.toInt_signExtend_of_le (by decide), BitVec.toInt_setWidth]
  rw [hlow, Int.bmod_def, BitVec.toInt_eq_toNat_cond, Hoc.toChar]
  split <;> split <;> omega

theorem narrow_eq_iff (x : BitVec 32) : (x.setWidth 8).signExtend 32 = x ↔ FitsChar x := by
  rw [← BitVec.toInt_inj, toInt_narrow, Hoc.toChar, FitsChar]
  omega

/-! ## What `updateHeaders` stores -/

theorem updateHeaders_place {numSets : Nat} (m : Memory) {hash : BitVec 32} (k : Fin ways) (header remOffset remLen version : BitVec 32)
    (hset : getSetFromHash numSets hash ≤ numSets) :
    ∃ m', updateHeaders numSets m hash k header remOffset remLen version = .ok m' ∧
      getFirstBlockOffset m' (getSetFromHash numSets hash) k = remOffset ∧
      getFirstBlockVersion m' (getSetFromHash numSets hash) k = (version.setWidth 8).signExtend 32 ∧
      getFirstBlockLen m' (getSetFromHash numSets hash) k = (remLen.setWidth 8).signExtend 32 := by
  have hk := k.isLt
  simp only [ways] at hk
  generalize hs : getSetFromHash numSets hash = set at hset ⊢
  obtain ⟨m', hok, -, -⟩ := updateClocks_spec (store m (headersAt set k) 4 header) set k
  refine ⟨setRemLen (setRemVersion (setRemOffset m' set k remOffset) set k version) set k remLen, ?_, ?_, ?_, ?_⟩
  · simp only [updateHeaders, hs, if_neg (Nat.not_lt.mpr hset), if_neg (way_ok k), setMatch, Int.toNat_natCast, hok, Run.ok_bind,
      Run.pure_eq_ok]
  · have hlen : logOffsetAt set k + 4 ≤ logLenAt set k := by unfold logOffsetAt logLenAt; omega
    have hversion : logOffsetAt set k + 4 ≤ logVersionAt set k := by unfold logOffsetAt logVersionAt; omega
    rw [getFirstBlockOffset, setRemLen, load_store_of_disjoint (.inl hlen), setRemVersion, load_store_of_disjoint (.inl hversion)]
    exact load_store ..
  · have hlen : logVersionAt set k + 1 ≤ logLenAt set k := by unfold logVersionAt logLenAt; omega
    have hself := load_store (setRemOffset m' set k remOffset) (logVersionAt set k) 1 (version.setWidth 8)
    rw [getFirstBlockVersion, setRemLen, load_store_of_disjoint (.inl hlen)]
    exact congrArg (BitVec.signExtend 32) hself
  · have hself := load_store (setRemVersion (setRemOffset m' set k remOffset) set k version) (logLenAt set k) 1 (remLen.setWidth 8)
    exact congrArg (BitVec.signExtend 32) hself

/-! ## What `formDiskBatches` stores and `joinFlow` reads -/

variable {β : Type}

/-- An `int` of the write path. -/
abbrev int (n : Nat) : BitVec 32 := BitVec.ofNat 32 n

/-- The getters give what `formDiskBatches` handed to `updateHeaders`. -/
def PlaceKept (m : Memory) (set matchNum : Nat) (p : Placed β) : Prop :=
  getFirstBlockOffset m set matchNum = int p.start ∧ getFirstBlockVersion m set matchNum = int p.version ∧
    getFirstBlockLen m set matchNum = int p.length

/-- A place that was kept is found right after the pass that stored it. -/
theorem PlaceKept.not_misses {d : Disks} {s : Batches.State β} {p : Placed β} (hp : p ∈ (formDiskBatches d s).2)
    (hblocks : p.response.allBlocks ≠ []) (hint : writeBufferSize d < 2 ^ 31) {m : Memory} {set matchNum : Nat}
    (h : PlaceKept m set matchNum p) : ¬JoinFlowMisses (formDiskBatches d s).1.alloc m set matchNum := by
  obtain ⟨-, hversion, hlen⟩ := h
  obtain ⟨hpresent, hcount, hroom⟩ := formDiskBatches_fields hp
  have hpos : 0 < p.response.allBlocks.length := List.length_pos_iff.mpr hblocks
  have hvalue : (int p.length).toInt = p.length := by
    rw [BitVec.toInt_eq_toNat_cond, BitVec.toNat_ofNat]
    omega
  rintro (hstale | hempty)
  · exact hstale (.inl (hversion.trans (congrArg int hpresent)))
  · rw [hlen, hvalue] at hempty
    omega

/-- The index gives an object's place back exactly if its version and its length are values of a `char`, and then `joinFlow` finds
the object. -/
theorem placeKept_iff {d : Disks} {s : Batches.State β} {p : Placed β} (hp : p ∈ (formDiskBatches d s).2) {numSets : Nat}
    (hsets : 0 < numSets) (m : Memory) (hash : BitVec 32) (k : Fin ways) :
    ∃ m', updateHeaders numSets m hash k hash (int p.start) (int p.length) (int p.version) = .ok m' ∧
      (PlaceKept m' (getSetFromHash numSets hash) k p ↔ FitsChar (int p.version) ∧ FitsChar (int p.length)) ∧
      (FitsChar (int p.version) → FitsChar (int p.length) → p.response.allBlocks ≠ [] → writeBufferSize d < 2 ^ 31 →
        ¬JoinFlowMisses (formDiskBatches d s).1.alloc m' (getSetFromHash numSets hash) k) := by
  have hset : getSetFromHash numSets hash ≤ numSets := (Nat.mod_lt _ hsets).le
  obtain ⟨m', hok, hoffset, hversion, hlen⟩ := updateHeaders_place m k hash (int p.start) (int p.length) (int p.version) hset
  have hkept : PlaceKept m' (getSetFromHash numSets hash) k p ↔ FitsChar (int p.version) ∧ FitsChar (int p.length) := by
    unfold PlaceKept
    rw [hoffset, hversion, hlen, narrow_eq_iff, narrow_eq_iff]
    exact ⟨fun h => h.2, fun h => ⟨rfl, h⟩⟩
  exact ⟨m', hok, hkept, fun hv hl hblocks hint => (hkept.mpr ⟨hv, hl⟩).not_misses hp hblocks hint⟩

/-- One disk and 1000 blocks. -/
def oneDisk : Disks := .ofSize 1 1000 (fun k => k) Nat.one_pos fun _ _ _ _ h => Int.ofNat.inj h

/-- An object of `n` blocks waits for the log. -/
def waitingState (n : Nat) : Batches.State Nat :=
  { Batches.State.init with stage := .forming, globalWriteWaitList := [[sampleResponse 1 n]] }

theorem runs_waiting (n : Nat) : (batchSystem oneDisk).Runs [.arrive [sampleResponse 1 n], .check] (waitingState n) := by
  have hstart : (batchSystem oneDisk).Runs [] (.init : Batches.State Nat) := .start rfl
  exact System.runs_foldlM hstart rfl

theorem placed_of_fields {s : Batches.State Nat} {place : Nat × Nat × Nat}
    (h : ((formDiskBatches oneDisk s).2.map fun p => (p.start, p.version, p.length)) = [place]) :
    ∃ p ∈ (formDiskBatches oneDisk s).2, p.start = place.1 ∧ p.version = place.2.1 ∧ p.length = place.2.2 := by
  obtain ⟨p, hp, hplace⟩ := List.mem_map.mp (h ▸ List.mem_singleton_self place)
  exact ⟨p, hp, congrArg Prod.fst hplace, congrArg (fun q => q.2.1) hplace, congrArg (fun q => q.2.2) hplace⟩

def way3 : Fin ways := ⟨3, by decide⟩

theorem placeKept_five : ∃ p ∈ (formDiskBatches oneDisk (waitingState 5)).2, ∃ m',
    updateHeaders 1 (fun _ => 0) 7 way3 7 (int p.start) (int p.length) (int p.version) = .ok m' ∧
      PlaceKept m' (getSetFromHash 1 7) way3 p := by
  obtain ⟨p, hp, -, hversion, hlength⟩ := @placed_of_fields (waitingState 5) (0, 0, 5) (by decide +kernel)
  obtain ⟨m', hok, hkept, -⟩ := placeKept_iff hp Nat.one_pos (fun _ => 0) 7 way3
  rw [hversion, hlength] at hkept
  exact ⟨p, hp, m', hok, hkept.mpr (by decide)⟩

/-- An object of 128 blocks fits into the write buffer, but its length reads back as -128, and `joinFlow` goes to the server. -/
theorem place_not_kept : ∃ s, (batchSystem oneDisk).Runs [.arrive [sampleResponse 1 128], .check] s ∧
    ∃ p ∈ (formDiskBatches oneDisk s).2, p.length ≤ writeBufferSize oneDisk ∧ ∀ m, ∃ m',
      updateHeaders 1 m 7 way3 7 (int p.start) (int p.length) (int p.version) = .ok m' ∧
        (getFirstBlockLen m' (getSetFromHash 1 7) way3).toInt = -128 ∧
        ¬PlaceKept m' (getSetFromHash 1 7) way3 p ∧
        JoinFlowMisses (formDiskBatches oneDisk s).1.alloc m' (getSetFromHash 1 7) way3 := by
  obtain ⟨p, hp, -, -, hlength⟩ := @placed_of_fields (waitingState 128) (0, 0, 128) (by decide +kernel)
  refine ⟨waitingState 128, runs_waiting 128, p, hp, (formDiskBatches_fields hp).2.2, fun m => ?_⟩
  have hset : getSetFromHash 1 7 ≤ 1 := by decide
  obtain ⟨m', hok, -, -, hlen⟩ := updateHeaders_place m way3 7 (int p.start) (int p.length) (int p.version) hset
  rw [hlength] at hlen
  have hread : (getFirstBlockLen m' (getSetFromHash 1 7) way3).toInt = -128 := by
    rw [hlen]
    decide
  refine ⟨m', hok, hread, fun hkept => ?_, .inr (hread ▸ by decide)⟩
  rw [hkept.2.2, hlength] at hread
  exact absurd hread (by decide)

end BeagleCache.Sets

import Mathlib.Tactic
import BeagleCache.IndexSets
import BeagleCache.Transition

/-! The order in which the ways of a set were used: the clocks of a set are a permutation of the numbers below `WAYS` for as
long as the index is in use, if they were one at the start. -/

namespace BeagleCache.Sets

open ByteMemory Store Transition

/-- The index in use. -/
def indexSystem (numSets : Nat) (mode : Mode) (file : File) (m₀ : Memory) : System Memory Op :=
  System.ofNext (fun m => m = initIndex numSets mode file m₀) (next numSets)

/-- What an operation on a way does to the clocks of its set: the way has the clock given, and the others keep their order. -/
structure Moves (m m' : Memory) (set : Nat) (k : Fin ways) (clock : Nat) : Prop where
  moved : (setAt m' set).clocks k = clock
  order : ∀ i j, i ≠ k → j ≠ k → ((setAt m' set).clocks i < (setAt m' set).clocks j ↔ (setAt m set).clocks i < (setAt m set).clocks j)

/-- The index works as the sets of an LRU cache. -/
structure LruOrder (numSets : Nat) (m : Memory) : Prop where
  perm : ∀ s < numSets, (List.ofFn (setAt m s).clocks).Perm (List.range ways)
  searched : ∀ s < numSets, ∀ hash, ∃ best, getBestMatchByIndex m s hash = .ok best
  searchedFree : ∀ s < numSets, ∀ lockOn, ∃ free, getFreeLocation m s lockOn = .ok free
  touched : ∀ s < numSets, ∀ k : Fin ways, ∃ m', updateClocks m s k = .ok m' ∧ Moves m m' s k (ways - 1)
  entered : ∀ hash, getSetFromHash numSets hash < numSets → ∀ (k : Fin ways) header remOffset remLen version,
    ∃ m', updateHeaders numSets m hash k header remOffset remLen version = .ok m' ∧
      Moves m m' (getSetFromHash numSets hash) k (ways - 1)
  discarded : ∀ hash, getSetFromHash numSets hash < numSets → ∀ k : Fin ways,
    ∃ m', discardHeaders numSets m hash k = .ok m' ∧ Moves m m' (getSetFromHash numSets hash) k 0
  frame : ∀ location (k : Fin ways) value n, ¬(8 * location + clockShifts k ≤ n ∧ n < 8 * location + clockShifts k + lways) →
    bit (setInteger m location k value) n = bit m n

/-- The clocks of all sets are ranks. -/
def Ranked (numSets : Nat) (m : Memory) : Prop := ∀ s < numSets, Recency.Ranking ways (setAt m s).clocks

theorem act_ranking {op : Op} {k : Fin ways} {h : SetHeader} (hrank : Recency.Ranking ways h.clocks) :
    Recency.Ranking ways (op.act k h).clocks := by
  cases op with
  | updateHeaders hash matchNum header remOffset remLen version => exact hrank.touch k
  | updateClocks hash matchNum => exact hrank.touch k
  | discardHeaders hash matchNum =>
      rw [Op.act, SetHeader.discard_clocks]
      exact hrank.retire k

theorem ranked_next {numSets : Nat} {m m' : Memory} {op : Op} (h : Ranked numSets m) (hnext : next numSets m op = .ok m') :
    Ranked numSets m' := by
  obtain ⟨k, -, hall⟩ := next_cases hnext
  intro s hs
  rw [hall s]
  split
  · exact act_ranking (h s hs)
  · exact h s hs

theorem ranked_runs {numSets : Nat} {mode : Mode} {file : File} {m₀ m : Memory} {ops : List Op}
    (hinit : Ranked numSets (initIndex numSets mode file m₀)) (hrun : (indexSystem numSets mode file m₀).Runs ops m) :
    Ranked numSets m := by
  have hinv : (indexSystem numSets mode file m₀).Invariant (Ranked numSets) :=
    ⟨fun s hs => by rw [hs]; exact hinit, fun s op s' h hstep => ranked_next h hstep⟩
  exact hinv.holds hrun

/-! ## The check of the sum -/

theorem foldl_clocks (c : Fin ways → BitVec 32) (hlt : ∀ i, (c i).toNat < ways) (l : List (Fin ways)) (hlen : l.length ≤ ways) :
    (l.foldl (fun total i => total + c i) 0).toNat = (l.map fun i => (c i).toNat).sum ∧
      (l.map fun i => (c i).toNat).sum ≤ 8 * l.length := by
  induction l using List.reverseRecOn with
  | nil => simp
  | append_singleton l i ih =>
      have hi := hlt i
      rw [List.length_append, List.length_singleton] at hlen
      obtain ⟨hsum, hle⟩ := ih (by omega)
      have hways : ways = 8 := rfl
      simp only [List.foldl_append, List.foldl_cons, List.foldl_nil, List.map_append, List.map_cons, List.map_nil,
        List.sum_append, List.sum_singleton, List.length_append, List.length_singleton, BitVec.toNat_add, hsum]
      omega

theorem total_eq {m : Memory} {s : Nat} (hrank : Recency.Ranking ways (setAt m s).clocks) :
    (List.finRange ways).foldl (fun total (i : Fin ways) => total + getClock m s i) 0 = (28 : BitVec 32) := by
  have hsum := (foldl_clocks (fun i => getClock m s i) (clocks_lt m s) (List.finRange ways) (by simp)).1
  have hperm := (Recency.Ranking.perm_iff.mpr hrank).sum_eq
  apply BitVec.eq_of_toNat_eq
  rw [hsum]
  have hmap : (List.finRange ways).map (fun (i : Fin ways) => (getClock m s i).toNat) = List.ofFn (setAt m s).clocks := by
    rw [List.ofFn_eq_map]
    rfl
  rw [hmap, hperm]
  rfl

theorem lruOrder_of_ranked {numSets : Nat} {m : Memory} (h : Ranked numSets m) : LruOrder numSets m where
  perm := fun s hs => Recency.Ranking.perm_iff.mpr (h s hs)
  searched := by
    intro s hs hash
    rw [getBestMatchByIndex]
    exact ⟨_, if_neg (not_not.mpr (total_eq (h s hs)))⟩
  searchedFree := by
    intro s hs lockOn
    rw [getFreeLocation]
    exact ⟨_, if_neg (not_not.mpr (total_eq (h s hs)))⟩
  touched := by
    intro s hs k
    obtain ⟨m', hok, hset, -⟩ := updateClocks_spec m s k
    refine ⟨m', hok, ?_, ?_⟩
    · rw [hset, SetHeader.touch_clocks, Recency.touch_self]
    · intro i j hi hj
      rw [hset, SetHeader.touch_clocks, (h s hs).touch_lt_touch hi hj]
  entered := by
    intro hash hs k header remOffset remLen version
    obtain ⟨m', hok, hset, -⟩ := updateHeaders_spec m k header remOffset remLen version hs.le
    refine ⟨m', hok, ?_, ?_⟩
    · rw [hset, SetHeader.enter_clocks, Recency.touch_self]
    · intro i j hi hj
      rw [hset, SetHeader.enter_clocks, (h _ hs).touch_lt_touch hi hj]
  discarded := by
    intro hash hs k
    obtain ⟨m', hok, hset, -⟩ := discardHeaders_spec numSets m hash k
    refine ⟨m', hok, ?_, ?_⟩
    · rw [hset, SetHeader.discard_clocks, Recency.retire_self]
    · intro i j hi hj
      rw [hset, SetHeader.discard_clocks, (h _ hs).retire_lt_retire hi hj]
  frame := by
    intro location k value n hn
    rw [bit_setInteger, if_neg]
    rwa [clockShifts_eq] at hn

/-! ## A reused index -/

/-- The bytes of the clocks that `initIndex` writes. -/
def initClockByte : Nat → BitVec 8
  | 0 => 0x77
  | 1 => 0x39
  | _ => 0x05

/-- The clocks of a set that a file has, where it is long enough. -/
def File.clocks (file : File) (set : Nat) (i : Fin ways) : Nat :=
  (getInteger (fun a => if a < file.length then file.bytes a else initClockByte (a - clocksAt set)) (clocksAt set) i).toNat

theorem initClockByte_bit : ∀ (i : Fin ways) (b : Fin 3),
    (initClockByte ((21 - 3 * i.val + b.val) / 8)).getLsbD ((21 - 3 * i.val + b.val) % 8) = i.val.testBit b.val := by
  decide

theorem bit_initSets {numSets set : Nat} (m : Memory) (h : set < numSets) (i : Fin ways) {b : Nat} (hb : b < 3) :
    bit (initSets numSets m) (clockBit (clocksAt set) i + b) = i.val.testBit b := by
  have hclock : (getInteger (initSets numSets m) (clocksAt set) i).toNat = i :=
    congrFun (congrArg SetHeader.clocks (setAt_initSets m h)) i
  have hbit := getLsbD_getInteger (initSets numSets m) (clocksAt set) i b
  rw [← BitVec.testBit_toNat, hclock] at hbit
  simpa [hb] using hbit.symm

theorem clocks_reused {numSets set : Nat} (file : File) (m₀ : Memory) (h : set < numSets) (i : Fin ways) :
    (setAt (initIndex numSets .REUSEV file m₀) set).clocks i = file.clocks set i := by
  have hbounds := clockBit_bounds (clocksAt set) i
  have hi := i.isLt
  have hways : ways = 8 := rfl
  apply congrArg BitVec.toNat
  apply getInteger_congr
  intro b hb
  have hin : (clockBit (clocksAt set) i + b) / 8 < numSets * setBytes := by
    unfold clocksAt at hbounds ⊢
    unfold setBytes at hbounds ⊢
    omega
  by_cases hfile : (clockBit (clocksAt set) i + b) / 8 < file.length
  · simp only [bit, initIndex, pread, hin, hfile, and_self, if_true]
  · have hinit := bit_initSets m₀ h i hb
    have hbyte : (clockBit (clocksAt set) i + b) / 8 - clocksAt set = (21 - 3 * i.val + b) / 8 := by
      unfold clockBit
      omega
    have hplace : (clockBit (clocksAt set) i + b) % 8 = (21 - 3 * i.val + b) % 8 := by
      unfold clockBit
      omega
    have hpattern := initClockByte_bit i ⟨b, hb⟩
    simp only [bit, initIndex, pread, hfile, and_false, if_false, hbyte]
    rw [← bit, hinit, hplace, hpattern]

theorem ranked_init {numSets : Nat} {mode : Mode} {file : File} (m₀ : Memory)
    (hstart : mode = .REUSEV → ∀ s < numSets, (List.ofFn (file.clocks s)).Perm (List.range ways)) :
    Ranked numSets (initIndex numSets mode file m₀) := by
  intro s hs
  have hinit : Recency.Ranking ways (setAt (initSets numSets m₀) s).clocks := by
    rw [setAt_initSets m₀ hs]
    exact ⟨Fin.val_injective, fun i => i.isLt⟩
  cases mode with
  | CREATE => exact hinit
  | OPEN => exact hinit
  | REUSEV =>
      rw [funext (clocks_reused file m₀ hs)]
      exact Recency.Ranking.perm_iff.mp (hstart rfl s hs)

/-- What `initIndex` has for the index: a block of `malloc` with the start of the index at the first page in it. Addresses have
32 bits. -/
structure Allocation where
  numSets : Nat
  /-- The address `malloc` gave. -/
  block : Nat
  fits : setBytes * numSets + 8192 < 2 ^ 32

/-- The index works as an LRU cache for as long as it is in use exactly if it was not read from a file whose clocks are none. -/
theorem lruOrder_iff (x : Allocation) (mode : Mode) (file : File) (m₀ : Memory) :
    (∀ ops m, (indexSystem x.numSets mode file m₀).Runs ops m → LruOrder x.numSets m) ↔
      (mode = .REUSEV → ∀ s < x.numSets, (List.ofFn (file.clocks s)).Perm (List.range ways)) := by
  generalize x.numSets = numSets
  constructor
  · rintro h rfl s hs
    have hperm := (h [] _ (.start rfl)).perm s hs
    rwa [funext (clocks_reused file m₀ hs)] at hperm
  · intro h ops m hrun
    exact lruOrder_of_ranked (ranked_runs (ranked_init m₀ h) hrun)

/-- The second chunk of the file is written over with the start of the index, 84 bytes to a set. -/
theorem indexHelper_twice (m : Memory) (a : Nat) (hlo : indexChunkSize ≤ a) (hhi : a < 2 * indexChunkSize) :
    a < (indexHelper 12485 m (indexHelper 12485 m (⟨0, fun _ => 0⟩, 0))).1.length ∧
      (indexHelper 12485 m (indexHelper 12485 m (⟨0, fun _ => 0⟩, 0))).1.bytes a = m (a - indexChunkSize) := by
  have hoff : getIndexOff 12485 0 = (0, indexChunkSize) := by decide
  have hoff' : (getIndexOff 12485 indexChunkSize).1 = indexChunkSize := rfl
  have hin : indexChunkSize ≤ a ∧ a < indexChunkSize + indexChunkSize := by omega
  simp only [indexHelper, pwrite, hoff, hoff', hin, and_self, if_true, and_true]
  omega

theorem load_header_initSets {numSets set : Nat} (m : Memory) (h : set < numSets) (i : Fin ways) :
    load (initSets numSets m) (headersAt set i) 4 = 0 :=
  congrFun (congrArg SetHeader.headers (setAt_initSets m h)) i

/-- The clocks of the set 12484, read from the second chunk, are in the header of the way 7 of the set 1. -/
theorem shifted_clocks {m : Memory} (m₀ : Memory) (hheader : load m (headersAt 1 7) 4 = 0) (i : Fin ways) :
    (setAt (initIndex 12485 .REUSEV (indexHelper 12485 m (indexHelper 12485 m (⟨0, fun _ => 0⟩, 0))).1 m₀) 12484).clocks i = 0 := by
  have hbounds := clockBit_bounds (clocksAt 12484) i
  generalize hfile : (indexHelper 12485 m (indexHelper 12485 m (⟨0, fun _ => 0⟩, 0))).1 = file
  have hclock : getInteger (initIndex 12485 .REUSEV file m₀) (clocksAt 12484) i = 0#32 := by
    apply BitVec.eq_of_getLsbD_eq
    intro b _
    rw [getLsbD_getInteger, BitVec.getLsbD_zero, Bool.and_eq_false_iff]
    by_cases hb : b < 3
    · right
      have hat : clocksAt 12484 = indexChunkSize + headersAt 1 7 := by decide
      have hchunk : indexChunkSize = 1048576 := by decide
      have hat' : headersAt 1 7 = 112 := by decide
      generalize hn : clockBit (clocksAt 12484) i + b = n
      obtain ⟨hlen, hbyte⟩ := indexHelper_twice m (n / 8) (by omega) (by omega)
      rw [hfile] at hlen hbyte
      have hin : n / 8 < 12485 * setBytes := by
        unfold setBytes
        omega
      have hplace : 8 * headersAt 1 7 + (n - 8 * clocksAt 12484) = 8 * (n / 8 - indexChunkSize) + n % 8 := by omega
      have hlt : n - 8 * clocksAt 12484 < 8 * 4 := by omega
      have hdiv : (8 * (n / 8 - indexChunkSize) + n % 8) / 8 = n / 8 - indexChunkSize := by omega
      have hmod : (8 * (n / 8 - indexChunkSize) + n % 8) % 8 = n % 8 := by omega
      have hbit := getLsbD_load m (headersAt 1 7) 4 (n - 8 * clocksAt 12484)
      rw [hheader, hplace, bit, hdiv, hmod] at hbit
      simp only [bit, initIndex, pread, hin, hlen, and_self, if_true, hbyte]
      simpa [hlt] using hbit.symm
    · exact .inl (by simpa using hb)
  exact congrArg BitVec.toNat hclock

/-- The index of 99880 objects is saved twice, a minute apart, and then read again: the set 12484 gets the header of the way 7 of
the set 1 for its clocks, which are all 0 then. -/
theorem reused_index_unordered :
    let m : Memory := initIndex (numSetsOf 99880) .CREATE ⟨0, fun _ => 0⟩ fun _ => 0
    let file := (indexHelper (numSetsOf 99880) m (indexHelper (numSetsOf 99880) m (⟨0, fun _ => 0⟩, 0))).1
    ¬∀ ops m', (indexSystem (numSetsOf 99880) .REUSEV file fun _ => 0).Runs ops m' → LruOrder (numSetsOf 99880) m' := by
  have hsets : numSetsOf 99880 = 12485 := by decide
  rw [hsets]
  intro m file h
  have hheader : load m (headersAt 1 (⟨7, by decide⟩ : Fin ways)) 4 = 0 := load_header_initSets _ (by decide) _
  have hrank := Recency.Ranking.perm_iff.mp ((h [] _ (.start rfl)).perm 12484 (by decide))
  have hzero := shifted_clocks (fun _ => 0) hheader
  exact absurd (hrank.injective ((hzero ⟨0, by decide⟩).trans (hzero ⟨1, by decide⟩).symm)) (by decide)

end BeagleCache.Sets

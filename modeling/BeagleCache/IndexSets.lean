import Mathlib.Tactic
import BeagleCache.LogStore
import BeagleCache.ByteMemory
import BeagleCache.Recency

/-! The sets of the index (index.c) as they lie in memory: `WAYS` headers, the same number of clocks of three bits each, which
are read and written in words of eight bytes, and behind them the places in the log. -/

namespace BeagleCache.Sets

open ByteMemory Store Function

def lways : Nat := 3

/-! ## The layout of a `setHeader` -/

/-- `sizeof( setHeader )`. -/
def setBytes : Nat := 84

def headersAt (set i : Nat) : Nat := setBytes * set + 4 * i

def clocksAt (set : Nat) : Nat := setBytes * set + 32

def logOffsetAt (set i : Nat) : Nat := setBytes * set + 36 + 4 * i

def logVersionAt (set i : Nat) : Nat := setBytes * set + 68 + i

def logLenAt (set i : Nat) : Nat := setBytes * set + 76 + i

/-! ## The clocks -/

def clockShifts : Nat → Nat
  | 0 => (ways - 1) * lways
  | i + 1 => clockShifts i - lways

def clockMasks : Nat → BitVec 64
  | 0 => BitVec.ofNat 64 (ways - 1) <<< clockShifts 0
  | i + 1 => clockMasks i >>> lways

def getInteger (m : Memory) (location which : Nat) : BitVec 32 :=
  ((load m location 8 &&& clockMasks which) >>> clockShifts which).setWidth 32

def setInteger (m : Memory) (location which : Nat) (value : BitVec 32) : Memory :=
  let l : BitVec 64 := load m location 8
  let n := value.setWidth 64 <<< clockShifts which
  let t := (l ^^^ n) &&& clockMasks which
  store m location 8 (l ^^^ t)

def decInteger (m : Memory) (location which : Nat) : Memory := setInteger m location which (-1 + getInteger m location which)

def incInteger (m : Memory) (location which : Nat) : Memory := setInteger m location which (1 + getInteger m location which)

theorem clockShifts_eq (i : Nat) : clockShifts i = 21 - 3 * i := by
  induction i with
  | zero => rfl
  | succ i ih =>
      rw [clockShifts, ih, lways]
      omega

theorem clockMasks_eq (i : Fin ways) : clockMasks i = BitVec.ofNat 64 (2 ^ lways - 1) <<< clockShifts i := by
  revert i
  decide

/-- The first bit of a clock. -/
def clockBit (location : Nat) (i : Fin ways) : Nat := 8 * location + (21 - 3 * i)

theorem getLsbD_getInteger (m : Memory) (location : Nat) (i : Fin ways) (b : Nat) :
    (getInteger m location i).getLsbD b = (decide (b < 3) && bit m (clockBit location i + b)) := by
  have hi := i.isLt
  simp only [ways] at hi
  simp only [getInteger, clockMasks_eq, clockShifts_eq, BitVec.getLsbD_setWidth, BitVec.getLsbD_ushiftRight,
    BitVec.getLsbD_and, lways]
  by_cases hb : b < 3
  · have hin : 21 - 3 * i.val + b < 64 := by omega
    have hload := getLsbD_load m location 8 (21 - 3 * i.val + b)
    rw [hload, getLsbD_ones _ _ hin]
    have hb' : b < 32 := by omega
    have hsum : 8 * location + (21 - 3 * i.val + b) = 8 * location + (21 - 3 * i.val) + b := by omega
    simp [hb, hb', hin, clockBit, hsum]
  · by_cases hin : 21 - 3 * i.val + b < 64
    · rw [getLsbD_ones _ _ hin]
      simp [hb]
    · have hout : ∀ x : BitVec 64, x.getLsbD (21 - 3 * i.val + b) = false := fun x => BitVec.getLsbD_of_ge _ _ (by omega)
      simp [hb, hout]

theorem bit_setInteger (m : Memory) (location : Nat) (i : Fin ways) (value : BitVec 32) (n : Nat) :
    bit (setInteger m location i value) n =
      if clockBit location i ≤ n ∧ n < clockBit location i + 3 then value.getLsbD (n - clockBit location i) else bit m n := by
  have hi := i.isLt
  simp only [ways] at hi
  have hstore := bit_store m location 8
    (load m location 8 ^^^ ((load m location 8 ^^^ value.setWidth 64 <<< clockShifts i) &&& clockMasks i)) n
  rw [setInteger, hstore]
  by_cases hwindow : 8 * location ≤ n ∧ n < 8 * (location + 8)
  · rw [if_pos hwindow]
    have hin : n - 8 * location < 64 := by omega
    rw [getLsbD_masked, clockMasks_eq, clockShifts_eq, lways, getLsbD_ones _ _ hin]
    by_cases hfield : clockBit location i ≤ n ∧ n < clockBit location i + 3
    · have hones : 21 - 3 * i.val ≤ n - 8 * location ∧ n - 8 * location < 21 - 3 * i.val + 3 := by
        unfold clockBit at hfield
        omega
      have hplace : n - 8 * location - (21 - 3 * i.val) = n - clockBit location i := by
        unfold clockBit
        omega
      have hshift : ¬n - 8 * location < 21 - 3 * i.val := by omega
      have hlt : n - clockBit location i < 64 := by omega
      simp [hfield, hones, hin, hshift, hplace]
    · have hones : ¬(21 - 3 * i.val ≤ n - 8 * location ∧ n - 8 * location < 21 - 3 * i.val + 3) := by
        unfold clockBit at hfield
        omega
      have hback : 8 * location + (n - 8 * location) = n := by omega
      rw [if_neg hfield, if_neg (by simpa using hones), getLsbD_load, hback]
      simp [hin]
  · have hfield : ¬(clockBit location i ≤ n ∧ n < clockBit location i + 3) := by
      unfold clockBit
      omega
    rw [if_neg hwindow, if_neg hfield]

theorem clockBit_bounds (location : Nat) (i : Fin ways) :
    8 * location ≤ clockBit location i ∧ clockBit location i + 3 ≤ 8 * location + 24 := by
  have hi := i.isLt
  simp only [ways] at hi
  unfold clockBit
  omega

theorem clockBit_apart (location : Nat) {i j : Fin ways} (hne : i ≠ j) :
    clockBit location i + 3 ≤ clockBit location j ∨ clockBit location j + 3 ≤ clockBit location i := by
  have hi := i.isLt
  have hj := j.isLt
  have hval : i.val ≠ j.val := fun heq => hne (Fin.ext heq)
  simp only [ways] at hi hj
  unfold clockBit
  omega

theorem toNat_eq_mod {x y : BitVec 32} (h : ∀ b, x.getLsbD b = (decide (b < 3) && y.getLsbD b)) : x.toNat = y.toNat % 8 := by
  have heq : x = (y.setWidth 3).setWidth 32 := by
    apply BitVec.eq_of_getLsbD_eq
    intro b hb
    rw [h]
    by_cases h3 : b < 3
    · simp [h3, hb]
    · simp [h3]
  have hlt : y.toNat % 8 < 2 ^ 32 := (Nat.mod_lt _ (by decide)).trans (by decide)
  rw [heq, BitVec.toNat_setWidth, BitVec.toNat_setWidth, Nat.mod_eq_of_lt hlt]

theorem getInteger_lt (m : Memory) (location : Nat) (i : Fin ways) : (getInteger m location i).toNat < ways := by
  have hmod : (getInteger m location i).toNat = (getInteger m location i).toNat % 8 := by
    apply toNat_eq_mod
    intro b
    rw [getLsbD_getInteger]
    cases decide (b < 3) <;> rfl
  rw [hmod]
  exact Nat.mod_lt _ (by decide)

theorem getInteger_congr {m m' : Memory} {location location' : Nat} {i : Fin ways}
    (h : ∀ b, b < 3 → bit m (clockBit location i + b) = bit m' (clockBit location' i + b)) :
    getInteger m location i = getInteger m' location' i := by
  apply BitVec.eq_of_getLsbD_eq
  intro b _
  rw [getLsbD_getInteger, getLsbD_getInteger]
  by_cases hb : b < 3
  · rw [h b hb]
  · simp [hb]

theorem getInteger_setInteger_self (m : Memory) (location : Nat) (i : Fin ways) (value : BitVec 32) :
    (getInteger (setInteger m location i value) location i).toNat = value.toNat % 8 := by
  apply toNat_eq_mod
  intro b
  rw [getLsbD_getInteger, bit_setInteger, Nat.add_sub_cancel_left]
  by_cases hb : b < 3
  · simp [hb]
  · simp [hb]

theorem getInteger_setInteger_of_ne (m : Memory) (location : Nat) {i j : Fin ways} (hne : j ≠ i) (value : BitVec 32) :
    getInteger (setInteger m location i value) location j = getInteger m location j := by
  apply getInteger_congr
  intro b hb
  have hapart := clockBit_apart location hne
  rw [bit_setInteger, if_neg (by omega)]

/-! ## The clocks of a set, one after the other -/

/-- A loop over the ways whose body changes the clock of one way, as `f` does, and nothing but clocks. -/
structure ClockLoop (location : Nat) (step : Memory → Fin ways → Memory) (f : Nat → Nat) : Prop where
  self : ∀ m i, (getInteger (step m i) location i).toNat = f (getInteger m location i).toNat
  other : ∀ m i j, j ≠ i → getInteger (step m i) location j = getInteger m location j
  frame : ∀ m i n, ¬(8 * location ≤ n ∧ n < 8 * location + 24) → bit (step m i) n = bit m n

namespace ClockLoop

variable {location : Nat} {step : Memory → Fin ways → Memory} {f : Nat → Nat}

theorem foldl_frame (h : ClockLoop location step f) (l : List (Fin ways)) (m : Memory) {n : Nat}
    (hn : ¬(8 * location ≤ n ∧ n < 8 * location + 24)) : bit (l.foldl step m) n = bit m n := by
  induction l generalizing m with
  | nil => rfl
  | cons i l ih => rw [List.foldl_cons, ih, h.frame m i n hn]

end ClockLoop

/-- The body of the loop of `updateClocks`. -/
def touchStep (location : Nat) (cut : BitVec 32) (m : Memory) (i : Fin ways) : Memory :=
  let present := getInteger m location i
  if cut < present then decInteger m location i
  else if present = cut then setInteger m location i (BitVec.ofNat 32 (ways - 1))
  else m

/-- The body of the loop of `discardHeaders`. -/
def retireStep (location : Nat) (cut : BitVec 32) (m : Memory) (i : Fin ways) : Memory :=
  if getInteger m location i < cut then incInteger m location i
  else if getInteger m location i = cut then setInteger m location i 0
  else m

theorem frame_setInteger (m : Memory) (location : Nat) (i : Fin ways) (value : BitVec 32) {n : Nat}
    (hn : ¬(8 * location ≤ n ∧ n < 8 * location + 24)) : bit (setInteger m location i value) n = bit m n := by
  have hbounds := clockBit_bounds location i
  rw [bit_setInteger, if_neg (by omega)]

theorem touchStep_loop (location : Nat) (cut : BitVec 32) :
    ClockLoop location (touchStep location cut)
      (fun c => if cut.toNat < c then c - 1 else if c = cut.toNat then ways - 1 else c) where
  self := by
    intro m i
    have hlt := getInteger_lt m location i
    simp only [ways] at hlt
    simp only [touchStep, decInteger, BitVec.lt_def, ← BitVec.toNat_inj]
    split
    · next h =>
        have hminus : (-1 : BitVec 32).toNat = 2 ^ 32 - 1 := rfl
        rw [getInteger_setInteger_self, BitVec.toNat_add, hminus]
        omega
    · split
      · rw [getInteger_setInteger_self]
        decide
      · rfl
  other := by
    intro m i j hne
    simp only [touchStep, decInteger]
    split
    · exact getInteger_setInteger_of_ne m location hne _
    · split
      · exact getInteger_setInteger_of_ne m location hne _
      · rfl
  frame := by
    intro m i n hn
    simp only [touchStep, decInteger]
    split
    · exact frame_setInteger m location i _ hn
    · split
      · exact frame_setInteger m location i _ hn
      · rfl

theorem retireStep_loop (location : Nat) (cut : BitVec 32) (hcut : cut.toNat < ways) :
    ClockLoop location (retireStep location cut)
      (fun c => if c < cut.toNat then c + 1 else if c = cut.toNat then 0 else c) where
  self := by
    intro m i
    simp only [ways] at hcut
    simp only [retireStep, incInteger, BitVec.lt_def, ← BitVec.toNat_inj]
    split
    · next h =>
        have hone : (1 : BitVec 32).toNat = 1 := rfl
        rw [getInteger_setInteger_self, BitVec.toNat_add, hone]
        omega
    · split
      · rw [getInteger_setInteger_self]
        rfl
      · rfl
  other := by
    intro m i j hne
    simp only [retireStep, incInteger]
    split
    · exact getInteger_setInteger_of_ne m location hne _
    · split
      · exact getInteger_setInteger_of_ne m location hne _
      · rfl
  frame := by
    intro m i n hn
    simp only [retireStep, incInteger]
    split
    · exact frame_setInteger m location i _ hn
    · split
      · exact frame_setInteger m location i _ hn
      · rfl

/-! ## Operations -/

def getClock (m : Memory) (set i : Nat) : BitVec 32 := getInteger m (clocksAt set) i

def getIndexHeader (m : Memory) (set i : Nat) : BitVec 32 := load m (headersAt set i) 4

def updateClocks (m : Memory) (set : Nat) (matchNum : Int) : Run Memory :=
  let cut := getInteger m (clocksAt set) matchNum.toNat
  if matchNum < 0 ∨ (ways : Int) - 1 < matchNum then .error .exit
  else if cut = BitVec.ofNat 32 (ways - 1) then .ok m
  else .ok ((List.finRange ways).foldl (touchStep (clocksAt set) cut) m)

def setMatch (m : Memory) (set : Nat) (matchNum : Int) (header : BitVec 32) : Run Memory :=
  updateClocks (store m (headersAt set matchNum.toNat) 4 header) set matchNum

def setRemOffset (m : Memory) (set matchNum : Nat) (remOffset : BitVec 32) : Memory := store m (logOffsetAt set matchNum) 4 remOffset

def setRemVersion (m : Memory) (set matchNum : Nat) (remVersion : BitVec 32) : Memory :=
  store m (logVersionAt set matchNum) 1 (remVersion.setWidth 8)

def setRemLen (m : Memory) (set matchNum : Nat) (remLen : BitVec 32) : Memory :=
  store m (logLenAt set matchNum) 1 (remLen.setWidth 8)

def getSetFromHash (numSets : Nat) (hash : BitVec 32) : Nat := hash.toNat % numSets

def updateHeaders (numSets : Nat) (m : Memory) (hash : BitVec 32) (matchNum : Int) (header remOffset remLen version : BitVec 32) :
    Run Memory :=
  let setNum := getSetFromHash numSets hash
  if numSets < setNum then .error .exit
  else if matchNum < 0 ∨ (ways : Int) - 1 < matchNum then .error .exit
  else do
    let m ← setMatch m setNum matchNum header
    let m := setRemOffset m setNum matchNum.toNat remOffset
    let m := setRemVersion m setNum matchNum.toNat version
    return setRemLen m setNum matchNum.toNat remLen

def discardHeaders (numSets : Nat) (m : Memory) (hash : BitVec 32) (matchNum : Int) : Run Memory :=
  let setNum := getSetFromHash numSets hash
  let cut := getInteger m (clocksAt setNum) matchNum.toNat
  if matchNum < 0 ∨ (ways : Int) - 1 < matchNum then .error .exit
  else if cut = 0 then .ok m
  else
    let m := store m (headersAt setNum matchNum.toNat) 4 (-1)
    .ok ((List.finRange ways).foldl (retireStep (clocksAt setNum) cut) m)

def hdrCmp (hash cmp : BitVec 32) : Bool := hash = cmp

/-- The clocks are also added up, and have to give 28. `none` is the way -1. -/
def getBestMatchByIndex (m : Memory) (set : Nat) (hash : BitVec 32) : Run (Option (Fin ways)) :=
  let total := (List.finRange ways).foldl (fun total (i : Fin ways) => total + getClock m set i) 0
  let best := (List.finRange ways).foldl (fun (best : Option (Fin ways) × BitVec 32) (i : Fin ways) =>
    let c := getClock m set i
    if best.2 < c ∧ hdrCmp hash (getIndexHeader m set i) then (some i, c) else best) (none, 0)
  if total ≠ 28 then .error .exit else .ok best.1

/-- `lockOn` is `lockOn` for the URL and the set; the clocks have to add up to 28 here too. -/
def getFreeLocation (m : Memory) (set : Nat) (lockOn : Fin ways → Bool) : Run (Option (Fin ways)) :=
  let total := (List.finRange ways).foldl (fun total (i : Fin ways) => total + getClock m set i) 0
  let free := (List.finRange ways).foldl (fun (free : Option (Fin ways) × BitVec 32) (i : Fin ways) =>
    let present := getClock m set i
    if lockOn i then free
    else if present < free.2 then (some i, present)
    else free) (none, BitVec.ofNat 32 (ways + 1))
  if total ≠ 28 then .error .exit else .ok free.1

inductive Op where
  | updateHeaders (hash : BitVec 32) (matchNum : Int) (header remOffset remLen version : BitVec 32)
  | updateClocks (hash : BitVec 32) (matchNum : Int)
  | discardHeaders (hash : BitVec 32) (matchNum : Int)

def next (numSets : Nat) (m : Memory) : Op → Run Memory
  | .updateHeaders hash matchNum header remOffset remLen version =>
      updateHeaders numSets m hash matchNum header remOffset remLen version
  | .updateClocks hash matchNum => updateClocks m (getSetFromHash numSets hash) matchNum
  | .discardHeaders hash matchNum => discardHeaders numSets m hash matchNum

def Op.hash : Op → BitVec 32
  | .updateHeaders hash _ _ _ _ _ | .updateClocks hash _ | .discardHeaders hash _ => hash

def Op.matchNum : Op → Int
  | .updateHeaders _ matchNum _ _ _ _ | .updateClocks _ matchNum | .discardHeaders _ matchNum => matchNum

/-! ## The start of the index, and the file it is saved in -/

/-- The body of the inner loop of `initIndex`. -/
def initWay (set : Nat) (m : Memory) (j : Fin ways) : Memory :=
  let m := setInteger m (clocksAt set) j (BitVec.ofNat 32 j)
  let m := store m (headersAt set j) 4 0
  let m := setRemOffset m set j (-1)
  let m := setRemVersion m set j (-1)
  setRemLen m set j (-1)

def initSets (numSets : Nat) (m : Memory) : Memory :=
  (List.range numSets).foldl (fun m set => (List.finRange ways).foldl (initWay set) m) m

inductive Mode where
  | CREATE
  | OPEN
  | REUSEV
  deriving DecidableEq

/-- A file, which has no bytes behind its length. -/
structure File where
  length : Nat
  bytes : Memory

/-- A read of `n` bytes of a file to the start of the index. -/
def pread (file : File) (n : Nat) (m : Memory) : Memory := fun a => if a < n ∧ a < file.length then file.bytes a else m a

def pwrite (file : File) (m : Memory) (n off : Nat) : File :=
  ⟨max file.length (off + n), fun a =>
    if off ≤ a ∧ a < off + n then m (a - off) else if a < file.length then file.bytes a else 0⟩

def numSetsOf (indexSize : Nat) : Nat :=
  let numSets := indexSize / ways
  if numSets * ways < indexSize then numSets + ways else numSets

/-- `m` is what `malloc` gave. -/
def initIndex (numSets : Nat) (mode : Mode) (file : File) (m : Memory) : Memory :=
  let m := initSets numSets m
  match mode with
  | .REUSEV => pread file (numSets * setBytes) m
  | .CREATE | .OPEN => m

/-- `INDEX_CHUNK_SIZE` -/
def indexChunkSize : Nat := 1024 * 1024

/-- The size is computed as an unsigned number and kept in an `int`. -/
def diskIndexSize (numSets : Nat) : Int := (BitVec.ofNat 32 ((setBytes * numSets + 8192) % 2 ^ 32 / 4096 * 4096)).toInt

/-- The offset, and the next `presentIndexOff`. -/
def getIndexOff (numSets presentIndexOff : Nat) : Nat × Nat :=
  let next := presentIndexOff + indexChunkSize
  (presentIndexOff, if diskIndexSize numSets ≤ (next : Int) then 0 else next)

/-- One round of `indexHelper`: what it writes is always the start of the index (`getIndexAddr`). -/
def indexHelper (numSets : Nat) (m : Memory) (s : File × Nat) : File × Nat :=
  let off := getIndexOff numSets s.2
  (pwrite s.1 m indexChunkSize off.1, off.2)

/-! ## A set as its headers and the ranks of its ways -/

@[ext]
structure SetHeader where
  headers : Fin ways → BitVec 32
  clocks : Fin ways → Nat

def setAt (m : Memory) (set : Nat) : SetHeader := ⟨fun i => getIndexHeader m set i, fun i => (getClock m set i).toNat⟩

namespace SetHeader

/-- `k` was used. -/
def touch (h : SetHeader) (k : Fin ways) : SetHeader := { h with clocks := Recency.touch ways h.clocks k }

/-- `k` gets a header. -/
def enter (h : SetHeader) (k : Fin ways) (header : BitVec 32) : SetHeader :=
  { h with headers := update h.headers k header }.touch k

/-- `k` is the next to be taken. A way that is that already keeps its header. -/
def discard (h : SetHeader) (k : Fin ways) : SetHeader :=
  if h.clocks k = 0 then h else ⟨update h.headers k (-1), Recency.retire h.clocks k⟩

@[simp] theorem touch_headers (h : SetHeader) (k : Fin ways) : (h.touch k).headers = h.headers := rfl

@[simp] theorem touch_clocks (h : SetHeader) (k : Fin ways) : (h.touch k).clocks = Recency.touch ways h.clocks k := rfl

@[simp] theorem enter_headers (h : SetHeader) (k : Fin ways) (header : BitVec 32) :
    (h.enter k header).headers = update h.headers k header := rfl

@[simp] theorem enter_clocks (h : SetHeader) (k : Fin ways) (header : BitVec 32) :
    (h.enter k header).clocks = Recency.touch ways h.clocks k := rfl

@[simp] theorem discard_clocks (h : SetHeader) (k : Fin ways) : (h.discard k).clocks = Recency.retire h.clocks k := by
  unfold discard
  split
  · next hzero => rw [Recency.retire_bottom hzero]
  · rfl

end SetHeader

/-- What an operation on the way `k` does to the set. -/
def Op.act (k : Fin ways) (h : SetHeader) : Op → SetHeader
  | .updateHeaders _ _ header _ _ _ => h.enter k header
  | .updateClocks _ _ => h.touch k
  | .discardHeaders _ _ => h.discard k

theorem clocks_lt (m : Memory) (set : Nat) (i : Fin ways) : (setAt m set).clocks i < ways := getInteger_lt m _ i

/-- The headers and the clocks are all there is to see of a set. -/
theorem setAt_congr {m m' : Memory} {set : Nat}
    (h : ∀ n, 8 * (setBytes * set) ≤ n → n < 8 * (setBytes * set + 35) → bit m n = bit m' n) : setAt m set = setAt m' set := by
  apply SetHeader.ext
  · funext i
    have hi := i.isLt
    simp only [ways] at hi
    apply load_congr
    intro n hlo hhi
    unfold headersAt at hlo hhi
    exact h n (by omega) (by omega)
  · funext i
    have hclock : getInteger m (clocksAt set) i = getInteger m' (clocksAt set) i := by
      apply getInteger_congr
      intro b hb
      have hbounds := clockBit_bounds (clocksAt set) i
      unfold clocksAt at hbounds ⊢
      exact h _ (by omega) (by omega)
    exact congrArg BitVec.toNat hclock

/-- Nothing is changed but the headers and clocks of a set, and its places in the log. -/
def OnlySet (set : Nat) (m m' : Memory) : Prop :=
  ∀ n, ¬(8 * (setBytes * set) ≤ n ∧ n < 8 * (setBytes * (set + 1))) → bit m' n = bit m n

theorem OnlySet.trans {set : Nat} {m₁ m₂ m₃ : Memory} (h : OnlySet set m₁ m₂) (h' : OnlySet set m₂ m₃) : OnlySet set m₁ m₃ :=
  fun n hn => (h' n hn).trans (h n hn)

theorem OnlySet.setAt_eq {set set' : Nat} {m m' : Memory} (h : OnlySet set m m') (hne : set' ≠ set) :
    setAt m' set' = setAt m set' := by
  apply setAt_congr
  intro n hlo hhi
  apply h
  unfold setBytes at hlo hhi ⊢
  omega

theorem onlySet_store {set a n : Nat} (m : Memory) (v : BitVec (8 * n)) (hlo : setBytes * set ≤ a)
    (hhi : a + n ≤ setBytes * (set + 1)) : OnlySet set m (store m a n v) := by
  intro i hi
  rw [bit_store, if_neg (by omega)]

theorem ClockLoop.setAt_foldl {set : Nat} {step : Memory → Fin ways → Memory} {f : Nat → Nat}
    (h : ClockLoop (clocksAt set) step f) (m : Memory) :
    setAt ((List.finRange ways).foldl step m) set = ⟨(setAt m set).headers, fun i => f ((setAt m set).clocks i)⟩ := by
  apply SetHeader.ext
  · funext i
    have hi := i.isLt
    simp only [ways] at hi
    apply load_congr
    intro n hlo hhi
    apply h.foldl_frame
    unfold headersAt at hlo hhi
    unfold clocksAt
    omega
  · funext i
    have hclock := foldl_field (fun m (i : Fin ways) => (getInteger m (clocksAt set) i).toNat) step (fun _ => f) h.self
      (fun m i j hne => congrArg BitVec.toNat (h.other m i j hne)) (List.finRange ways) (List.nodup_finRange ways) m i
    rwa [if_pos (List.mem_finRange i)] at hclock

theorem ClockLoop.onlySet {set : Nat} {step : Memory → Fin ways → Memory} {f : Nat → Nat}
    (h : ClockLoop (clocksAt set) step f) (m : Memory) : OnlySet set m ((List.finRange ways).foldl step m) := by
  intro n hn
  apply h.foldl_frame
  unfold clocksAt
  unfold setBytes at hn ⊢
  omega

theorem way_cases (matchNum : Int) : (∃ k : Fin ways, matchNum = k) ∨ (matchNum < 0 ∨ (ways : Int) - 1 < matchNum) := by
  by_cases h : matchNum < 0 ∨ (ways : Int) - 1 < matchNum
  · exact .inr h
  · refine .inl ⟨⟨matchNum.toNat, ?_⟩, ?_⟩
    · simp only [ways] at h ⊢
      omega
    · simp only [ways] at h ⊢
      omega

theorem way_ok (k : Fin ways) : ¬((k : Int) < 0 ∨ (ways : Int) - 1 < k) := by
  have hk := k.isLt
  omega

theorem updateClocks_spec (m : Memory) (set : Nat) (k : Fin ways) :
    ∃ m', updateClocks m set k = .ok m' ∧ setAt m' set = (setAt m set).touch k ∧ OnlySet set m m' := by
  simp only [updateClocks, if_neg (way_ok k), Int.toNat_natCast]
  split
  · next hcut =>
      refine ⟨m, rfl, ?_, fun n _ => rfl⟩
      have htop : (setAt m set).clocks k = ways - 1 := by
        show (getInteger m (clocksAt set) k).toNat = ways - 1
        rw [hcut]
        rfl
      rw [SetHeader.touch, Recency.touch_top (clocks_lt m set) htop]
  · have hloop := touchStep_loop (clocksAt set) (getInteger m (clocksAt set) k)
    exact ⟨_, rfl, hloop.setAt_foldl m, hloop.onlySet m⟩

theorem setAt_store_header (m : Memory) (set : Nat) (k : Fin ways) (header : BitVec 32) :
    setAt (store m (headersAt set k) 4 header) set =
      ⟨update (setAt m set).headers k header, (setAt m set).clocks⟩ := by
  have hk := k.isLt
  simp only [ways] at hk
  apply SetHeader.ext
  · funext i
    by_cases hi : i = k
    · have hself := load_store m (headersAt set k) 4 header
      have hupdate : update (setAt m set).headers k header k = header := update_self ..
      rw [hi]
      exact hself.trans hupdate.symm
    · have hval : i.val ≠ k.val := fun heq => hi (Fin.ext heq)
      have hbeside : load (store m (headersAt set k) 4 header) (headersAt set i) 4 = load m (headersAt set i) 4 :=
        load_store_of_disjoint (by unfold headersAt; omega)
      have hupdate : update (setAt m set).headers k header i = (setAt m set).headers i := update_of_ne hi ..
      exact hbeside.trans hupdate.symm
  · funext i
    have hclock : getInteger (store m (headersAt set k) 4 header) (clocksAt set) i = getInteger m (clocksAt set) i := by
      apply getInteger_congr
      intro b hb
      have hbounds := clockBit_bounds (clocksAt set) i
      rw [bit_store, if_neg]
      unfold headersAt
      unfold clocksAt at hbounds ⊢
      omega
    exact congrArg BitVec.toNat hclock

theorem setAt_store_behind {set a n : Nat} (m : Memory) (v : BitVec (8 * n)) (h : setBytes * set + 35 ≤ a) :
    setAt (store m a n v) set = setAt m set := by
  apply setAt_congr
  intro i hlo hhi
  rw [bit_store, if_neg (by omega)]

theorem onlySet_header (m : Memory) (set : Nat) (k : Fin ways) (header : BitVec 32) :
    OnlySet set m (store m (headersAt set k) 4 header) := by
  have hk := k.isLt
  simp only [ways] at hk
  exact onlySet_store m _ (by unfold headersAt; omega) (by unfold headersAt setBytes; omega)

theorem setPlace_spec (m : Memory) (set : Nat) (k : Fin ways) (remOffset version remLen : BitVec 32) :
    setAt (setRemLen (setRemVersion (setRemOffset m set k remOffset) set k version) set k remLen) set = setAt m set ∧
      OnlySet set m (setRemLen (setRemVersion (setRemOffset m set k remOffset) set k version) set k remLen) := by
  have hk := k.isLt
  simp only [ways] at hk
  constructor
  · rw [setRemLen, setAt_store_behind _ _ (by unfold logLenAt; omega), setRemVersion,
      setAt_store_behind _ _ (by unfold logVersionAt; omega), setRemOffset,
      setAt_store_behind _ _ (by unfold logOffsetAt; omega)]
  · have hoffset : OnlySet set m (setRemOffset m set k remOffset) :=
      onlySet_store m _ (by unfold logOffsetAt; omega) (by unfold logOffsetAt setBytes; omega)
    have hversion : OnlySet set (setRemOffset m set k remOffset) (setRemVersion (setRemOffset m set k remOffset) set k version) :=
      onlySet_store _ _ (by unfold logVersionAt; omega) (by unfold logVersionAt setBytes; omega)
    exact hoffset.trans (hversion.trans (onlySet_store _ _ (by unfold logLenAt; omega) (by unfold logLenAt setBytes; omega)))

theorem updateHeaders_spec {numSets : Nat} (m : Memory) {hash : BitVec 32} (k : Fin ways) (header remOffset remLen version : BitVec 32)
    (hset : getSetFromHash numSets hash ≤ numSets) :
    ∃ m', updateHeaders numSets m hash k header remOffset remLen version = .ok m' ∧
      setAt m' (getSetFromHash numSets hash) = (setAt m (getSetFromHash numSets hash)).enter k header ∧
      OnlySet (getSetFromHash numSets hash) m m' := by
  generalize hs : getSetFromHash numSets hash = set at hset ⊢
  obtain ⟨m', hok, hset', honly⟩ := updateClocks_spec (store m (headersAt set k) 4 header) set k
  have hplace := setPlace_spec m' set k remOffset version remLen
  refine ⟨setRemLen (setRemVersion (setRemOffset m' set k remOffset) set k version) set k remLen, ?_, ?_, ?_⟩
  · simp only [updateHeaders, hs, if_neg (Nat.not_lt.mpr hset), if_neg (way_ok k), setMatch, Int.toNat_natCast, hok, Run.ok_bind,
      Run.pure_eq_ok]
  · rw [hplace.1, hset', setAt_store_header]
    rfl
  · exact (onlySet_header m set k header).trans (honly.trans hplace.2)

theorem discardHeaders_spec (numSets : Nat) (m : Memory) (hash : BitVec 32) (k : Fin ways) :
    ∃ m', discardHeaders numSets m hash k = .ok m' ∧
      setAt m' (getSetFromHash numSets hash) = (setAt m (getSetFromHash numSets hash)).discard k ∧
      OnlySet (getSetFromHash numSets hash) m m' := by
  have hk := k.isLt
  simp only [ways] at hk
  simp only [discardHeaders, if_neg (way_ok k), Int.toNat_natCast]
  generalize getSetFromHash numSets hash = set
  have hclock : (setAt m set).clocks k = (getInteger m (clocksAt set) k).toNat := rfl
  split
  · next hcut =>
      refine ⟨m, rfl, ?_, fun n _ => rfl⟩
      rw [SetHeader.discard, if_pos (by rw [hclock, hcut]; rfl)]
  · next hcut =>
      have hne : (setAt m set).clocks k ≠ 0 := by
        rw [hclock]
        exact fun hzero => hcut (BitVec.eq_of_toNat_eq hzero)
      have hloop := retireStep_loop (clocksAt set) (getInteger m (clocksAt set) k) (getInteger_lt m _ k)
      refine ⟨_, rfl, ?_, ?_⟩
      · rw [hloop.setAt_foldl, setAt_store_header, SetHeader.discard, if_neg hne]
        rfl
      · exact (onlySet_header m set k (-1)).trans (hloop.onlySet _)

theorem OnlySet.setAt_all {set : Nat} {m m' : Memory} (h : OnlySet set m m') (act : SetHeader → SetHeader)
    (hset : setAt m' set = act (setAt m set)) (s : Nat) : setAt m' s = if s = set then act (setAt m s) else setAt m s := by
  split
  · next hs => rw [hs, hset]
  · next hs => exact h.setAt_eq hs

theorem next_way (numSets : Nat) (m : Memory) {op : Op} {k : Fin ways} (hk : op.matchNum = k) :
    (∃ m', next numSets m op = .ok m' ∧
      ∀ s, setAt m' s = if s = getSetFromHash numSets op.hash then op.act k (setAt m s) else setAt m s) ∨
    (next numSets m op = .error .exit ∧ numSets < getSetFromHash numSets op.hash) := by
  cases op with
  | updateHeaders hash matchNum header remOffset remLen version =>
      cases hk
      by_cases hset : numSets < getSetFromHash numSets hash
      · refine .inr ⟨?_, hset⟩
        simp only [next, updateHeaders, if_pos hset]
      · obtain ⟨m', hok, heq, honly⟩ := updateHeaders_spec m k header remOffset remLen version (Nat.not_lt.mp hset)
        exact .inl ⟨m', hok, honly.setAt_all (fun h => h.enter k header) heq⟩
  | updateClocks hash matchNum =>
      cases hk
      obtain ⟨m', hok, heq, honly⟩ := updateClocks_spec m (getSetFromHash numSets hash) k
      exact .inl ⟨m', hok, honly.setAt_all (fun h => h.touch k) heq⟩
  | discardHeaders hash matchNum =>
      cases hk
      obtain ⟨m', hok, heq, honly⟩ := discardHeaders_spec numSets m hash k
      exact .inl ⟨m', hok, honly.setAt_all (fun h => h.discard k) heq⟩

theorem next_exit {numSets : Nat} (m : Memory) {op : Op} (h : op.matchNum < 0 ∨ (ways : Int) - 1 < op.matchNum) :
    next numSets m op = .error .exit := by
  cases op with
  | updateHeaders hash matchNum header remOffset remLen version =>
      simp only [next, updateHeaders, if_pos (show matchNum < 0 ∨ (ways : Int) - 1 < matchNum from h), ite_self]
  | updateClocks hash matchNum => exact if_pos h
  | discardHeaders hash matchNum => exact if_pos h

theorem next_cases {numSets : Nat} {m m' : Memory} {op : Op} (h : next numSets m op = .ok m') :
    ∃ k : Fin ways, op.matchNum = k ∧
      ∀ s, setAt m' s = if s = getSetFromHash numSets op.hash then op.act k (setAt m s) else setAt m s := by
  obtain ⟨k, hk⟩ | hbad := way_cases op.matchNum
  · obtain ⟨m₁, hok, hall⟩ | ⟨hexit, -⟩ := next_way numSets m hk
    · rw [hok] at h
      cases h
      exact ⟨k, hk, hall⟩
    · rw [hexit] at h
      cases h
  · rw [next_exit m hbad] at h
    cases h

/-! ## The set after `initIndex` -/

theorem setAt_setInteger (m : Memory) (set : Nat) (k : Fin ways) (value : BitVec 32) :
    setAt (setInteger m (clocksAt set) k value) set =
      ⟨(setAt m set).headers, update (setAt m set).clocks k (value.toNat % 8)⟩ := by
  apply SetHeader.ext
  · funext i
    have hi := i.isLt
    simp only [ways] at hi
    apply load_congr
    intro n hlo hhi
    apply frame_setInteger
    unfold headersAt at hlo hhi
    unfold clocksAt
    omega
  · funext i
    by_cases hi : i = k
    · subst hi
      have hupdate : update (setAt m set).clocks i (value.toNat % 8) i = value.toNat % 8 := update_self ..
      exact (getInteger_setInteger_self m (clocksAt set) i value).trans hupdate.symm
    · have hupdate : update (setAt m set).clocks k (value.toNat % 8) i = (setAt m set).clocks i :=
        update_of_ne hi ..
      exact (congrArg BitVec.toNat (getInteger_setInteger_of_ne m (clocksAt set) hi value)).trans hupdate.symm

theorem initWay_spec (set : Nat) (m : Memory) (j : Fin ways) :
    setAt (initWay set m j) set = ⟨update (setAt m set).headers j 0, update (setAt m set).clocks j j⟩ ∧
      OnlySet set m (initWay set m j) := by
  have hj := j.isLt
  simp only [ways] at hj
  have hvalue : (BitVec.ofNat 32 j).toNat % 8 = j := by
    rw [BitVec.toNat_ofNat]
    omega
  have hplace := fun m => setPlace_spec m set j (-1) (-1) (-1)
  constructor
  · rw [initWay, (hplace _).1, setAt_store_header, setAt_setInteger, hvalue]
  · have hclock : OnlySet set m (setInteger m (clocksAt set) j (BitVec.ofNat 32 j)) := by
      intro n hn
      apply frame_setInteger
      unfold clocksAt
      unfold setBytes at hn ⊢
      omega
    exact hclock.trans ((onlySet_header _ set j 0).trans (hplace _).2)

/-- A set after `initIndex`. -/
def SetHeader.init : SetHeader := ⟨fun _ => 0, fun i => i⟩

theorem foldl_initWay (set : Nat) (m : Memory) :
    setAt ((List.finRange ways).foldl (initWay set) m) set = SetHeader.init ∧
      OnlySet set m ((List.finRange ways).foldl (initWay set) m) := by
  constructor
  · have hall := foldl_field (fun m i => ((setAt m set).headers i, (setAt m set).clocks i)) (initWay set)
      (fun (i : Fin ways) _ => ((0 : BitVec 32), i.val))
      (fun m i => by simp [(initWay_spec set m i).1]) (fun m i j hne => by simp [(initWay_spec set m i).1, hne])
      (List.finRange ways) (List.nodup_finRange ways) m
    apply SetHeader.ext
    · funext i
      have hi := hall i
      rw [if_pos (List.mem_finRange i)] at hi
      exact congrArg Prod.fst hi
    · funext i
      have hi := hall i
      rw [if_pos (List.mem_finRange i)] at hi
      exact congrArg Prod.snd hi
  · generalize List.finRange ways = l
    induction l generalizing m with
    | nil => exact fun n _ => rfl
    | cons i l ih => exact (initWay_spec set m i).2.trans (ih _)

theorem setAt_initSets {numSets set : Nat} (m : Memory) (h : set < numSets) : setAt (initSets numSets m) set = SetHeader.init := by
  induction numSets with
  | zero => exact absurd h (Nat.not_lt_zero _)
  | succ n ih =>
      have hlast := foldl_initWay n (initSets n m)
      rw [initSets, List.range_succ, List.foldl_append, List.foldl_cons, List.foldl_nil]
      by_cases hn : set = n
      · subst hn
        exact hlast.1
      · rw [← ih (by omega)]
        exact hlast.2.setAt_eq hn

end BeagleCache.Sets

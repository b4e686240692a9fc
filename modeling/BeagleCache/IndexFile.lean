import Mathlib.Tactic
import BeagleCache.IndexOrder

/-! The file of the index. `indexHelper` saves the index in chunks, one each time it is woken; the offset moves on from chunk to
chunk, but the address is always that of the first. -/

namespace BeagleCache.Sets

open ByteMemory Store

namespace Allocation

/-- The number of bytes that `malloc` was asked for. -/
def size (x : Allocation) : Nat := (setBytes * x.numSets + 8192) / 4096 * 4096

def getIndexAddr (x : Allocation) : Nat := (x.block + 4095) / 4096 * 4096

/-- What is left of the first page in front of the index. -/
def gap (x : Allocation) : Nat := (4096 - x.block % 4096) % 4096

theorem getIndexAddr_eq (x : Allocation) : x.getIndexAddr = x.block + x.gap := by
  unfold getIndexAddr gap
  omega

theorem size_lt (x : Allocation) : x.size < 2 ^ 32 := by
  have hfits := x.fits
  unfold size
  omega

/-- `diskIndexSize` is that number as long as it is the value of an `int`. -/
theorem diskIndexSize_eq (x : Allocation) :
    diskIndexSize x.numSets = if x.size < 2 ^ 31 then (x.size : Int) else (x.size : Int) - 2 ^ 32 := by
  have hsize := x.size_lt
  have hbytes : (BitVec.ofNat 32 x.size).toNat = x.size := by
    rw [BitVec.toNat_ofNat, Nat.mod_eq_of_lt hsize]
  rw [diskIndexSize, Nat.mod_eq_of_lt x.fits]
  change (BitVec.ofNat 32 x.size).toInt = _
  rw [BitVec.toInt_eq_toNat_cond, hbytes]
  split <;> split <;> omega

theorem sets_lt_size (x : Allocation) : x.numSets * setBytes + 4096 < x.size := by
  unfold size setBytes
  omega

end Allocation

def getIndexLen : Nat := indexChunkSize

/-- No write of `indexHelper` reads a byte that is not allocated. -/
def ReadsInside (x : Allocation) : Prop :=
  ∀ i < getIndexLen, x.block ≤ x.getIndexAddr + i ∧ x.getIndexAddr + i < x.block + x.size

theorem readsInside_iff (x : Allocation) : ReadsInside x ↔ x.gap + indexChunkSize ≤ x.size := by
  have hlen : getIndexLen = 1048576 := rfl
  have hchunk : indexChunkSize = 1048576 := rfl
  unfold ReadsInside
  rw [x.getIndexAddr_eq, hlen, hchunk]
  constructor
  · intro h
    have hlast := h 1048575 (by omega)
    omega
  · intro h i hi
    omega

/-! ## A cycle of writes -/

/-- The number of writes until `getIndexOff` is back at the start. -/
def rounds (numSets : Nat) : Nat := max 1 (((diskIndexSize numSets).toNat + indexChunkSize - 1) / indexChunkSize)

/-- The helper is woken `n` times, while the index stays as it is. -/
def save (numSets : Nat) (m : Memory) (file : File) : Nat → File × Nat
  | 0 => (file, 0)
  | n + 1 => indexHelper numSets m (save numSets m file n)

/-- The bytes of a file after `n` chunks of it were written. -/
def chunked (m : Memory) (file : File) (n : Nat) : File :=
  ⟨max file.length (n * indexChunkSize), fun a =>
    if a < n * indexChunkSize then m (a % indexChunkSize) else if a < file.length then file.bytes a else 0⟩

theorem rounds_pos (numSets : Nat) : 0 < rounds numSets := Nat.lt_of_lt_of_le Nat.one_pos (le_max_left ..)

theorem diskIndexSize_le_iff (numSets n : Nat) (hn : 0 < n) :
    diskIndexSize numSets ≤ ((n * indexChunkSize : Nat) : Int) ↔ rounds numSets ≤ n := by
  have hchunk : indexChunkSize = 1048576 := rfl
  unfold rounds
  rw [hchunk]
  omega

/-- The files have the same bytes. -/
def Agrees (f g : File) : Prop := f.length = g.length ∧ ∀ a < f.length, f.bytes a = g.bytes a

theorem agrees_chunked_zero (m : Memory) (file : File) : Agrees file (chunked m file 0) := by
  refine ⟨by simp [chunked], fun a ha => ?_⟩
  simp [chunked, ha]

theorem mod_of_chunk {n c a : Nat} (hlo : n * c ≤ a) (hhi : a < n * c + c) : a % c = a - n * c := by
  obtain ⟨b, rfl⟩ := Nat.exists_eq_add_of_le hlo
  rw [Nat.mul_add_mod_self_right, Nat.add_sub_cancel_left]
  exact Nat.mod_eq_of_lt (by omega)

theorem pwrite_chunked {m : Memory} {file f : File} {n : Nat} (h : Agrees f (chunked m file n)) :
    pwrite f m indexChunkSize (n * indexChunkSize) = chunked m file (n + 1) := by
  obtain ⟨hlength, hbytes⟩ := h
  have hold (a : Nat) (ha : a < n * indexChunkSize) : (chunked m file n).bytes a = m (a % indexChunkSize) := if_pos ha
  have hkept (a : Nat) (ha : ¬a < n * indexChunkSize) (hfile : a < file.length) : (chunked m file n).bytes a = file.bytes a :=
    (if_neg ha).trans (if_pos hfile)
  have hend : f.length = max file.length (n * indexChunkSize) := hlength
  have hmod (a : Nat) : n * indexChunkSize ≤ a → a < n * indexChunkSize + indexChunkSize → a % indexChunkSize = a - n * indexChunkSize :=
    mod_of_chunk
  simp only [pwrite, chunked, Nat.succ_mul, File.mk.injEq]
  generalize n * indexChunkSize = off at *
  generalize indexChunkSize = c at *
  refine ⟨by omega, funext fun a => ?_⟩
  by_cases hin : off ≤ a ∧ a < off + c
  · rw [if_pos hin, if_pos hin.2, hmod a hin.1 hin.2]
  · rw [if_neg hin]
    by_cases hbefore : a < off
    · rw [if_pos (by omega), hbytes a (by omega), hold a hbefore, if_pos (by omega)]
    · rw [if_neg (by omega : ¬a < off + c)]
      by_cases hfile : a < file.length
      · rw [if_pos (by omega), if_pos hfile, hbytes a (by omega), hkept a hbefore hfile]
      · rw [if_neg (by omega), if_neg hfile]

/-- After `n` writes of the cycle the file has `n` times the first chunk of the index. -/
theorem save_eq (numSets : Nat) (m : Memory) (file : File) {n : Nat} (hn : n < rounds numSets) :
    save numSets m file (n + 1) = (chunked m file (n + 1), if n + 1 = rounds numSets then 0 else (n + 1) * indexChunkSize) := by
  have hnext (k : Nat) : (getIndexOff numSets (k * indexChunkSize)).2 = if rounds numSets ≤ k + 1 then 0 else (k + 1) * indexChunkSize := by
    have hback := diskIndexSize_le_iff numSets (k + 1) k.succ_pos
    rw [getIndexOff, ← Nat.succ_mul]
    exact if_congr hback rfl rfl
  have hlast : rounds numSets ≤ n + 1 ↔ n + 1 = rounds numSets := by omega
  induction n with
  | zero =>
      have hoff := hnext 0
      have hfile := pwrite_chunked (agrees_chunked_zero m file)
      rw [Nat.zero_mul] at hoff hfile
      simp only [save, indexHelper, hoff, hlast]
      exact congrArg (·, _) hfile
  | succ n ih =>
      have hbefore := ih (by omega) (by omega)
      rw [if_neg (by omega)] at hbefore
      rw [save, hbefore]
      simp only [indexHelper, hnext, hlast]
      exact congrArg (·, _) (pwrite_chunked ⟨rfl, fun _ _ => rfl⟩)

/-! ## The index read back -/

/-- The file gives the index back as it was. -/
def ReadsBack (x : Allocation) (m m₀ : Memory) (file : File) : Prop :=
  ∀ a < x.numSets * setBytes, initIndex x.numSets .REUSEV (save x.numSets m file (rounds x.numSets)).1 m₀ a = m a

/-- Behind its first chunk the index says what the first chunk says. An index of which `diskIndexSize` is negative is saved up to the
first chunk only, and the file has to have the rest already. -/
def Repeats (x : Allocation) (m m₀ : Memory) (file : File) : Prop :=
  ∀ a < x.numSets * setBytes, indexChunkSize ≤ a →
    m a = if 0 ≤ diskIndexSize x.numSets then m (a % indexChunkSize) else initIndex x.numSets .REUSEV file m₀ a

/-- The writes go over the whole index, or the index is so large that there is one write. -/
theorem rounds_cases (x : Allocation) :
    (0 ≤ diskIndexSize x.numSets ∧ x.numSets * setBytes ≤ rounds x.numSets * indexChunkSize) ∨
      (diskIndexSize x.numSets < 0 ∧ rounds x.numSets = 1) := by
  have hsize := x.diskIndexSize_eq
  have hsets := x.sets_lt_size
  have hlt := x.size_lt
  have hall := (diskIndexSize_le_iff x.numSets (rounds x.numSets) (rounds_pos _)).mpr le_rfl
  by_cases hsmall : x.size < 2 ^ 31
  · rw [if_pos hsmall] at hsize
    rw [hsize] at hall
    refine .inl ⟨by omega, ?_⟩
    have hcover : x.size ≤ rounds x.numSets * indexChunkSize := by exact_mod_cast hall
    omega
  · rw [if_neg hsmall] at hsize
    have hone := (diskIndexSize_le_iff x.numSets 1 Nat.one_pos).mp (by omega)
    have hpos := rounds_pos x.numSets
    exact .inr ⟨by omega, by omega⟩

theorem initIndex_chunked {numSets : Nat} (m m₀ : Memory) (file : File) (n : Nat) {a : Nat} (ha : a < numSets * setBytes) :
    initIndex numSets .REUSEV (chunked m file n) m₀ a =
      if a < n * indexChunkSize then m (a % indexChunkSize) else initIndex numSets .REUSEV file m₀ a := by
  have hread (f : File) : initIndex numSets .REUSEV f m₀ a = if a < f.length then f.bytes a else initSets numSets m₀ a := by
    simp only [initIndex, pread, ha, true_and]
  have hlength : a < (chunked m file n).length ↔ a < file.length ∨ a < n * indexChunkSize := lt_max_iff
  rw [hread, hread]
  by_cases hchunk : a < n * indexChunkSize
  · rw [if_pos (hlength.mpr (.inr hchunk)), if_pos hchunk]
    exact if_pos hchunk
  · rw [if_neg hchunk]
    by_cases hfile : a < file.length
    · rw [if_pos (hlength.mpr (.inl hfile)), if_pos hfile]
      exact (if_neg hchunk).trans (if_pos hfile)
    · rw [if_neg (fun h => (hlength.mp h).elim hfile hchunk), if_neg hfile]

theorem initIndex_save (x : Allocation) (m m₀ : Memory) (file : File) {a : Nat} (ha : a < x.numSets * setBytes) :
    initIndex x.numSets .REUSEV (save x.numSets m file (rounds x.numSets)).1 m₀ a =
      if a < indexChunkSize then m a
      else if 0 ≤ diskIndexSize x.numSets then m (a % indexChunkSize) else initIndex x.numSets .REUSEV file m₀ a := by
  obtain ⟨n, hn⟩ := Nat.exists_eq_add_of_lt (rounds_pos x.numSets)
  rw [Nat.zero_add] at hn
  have hsave : (save x.numSets m file (rounds x.numSets)).1 = chunked m file (rounds x.numSets) := by
    rw [hn, save_eq x.numSets m file (by omega)]
  rw [hsave, initIndex_chunked m m₀ file _ ha]
  by_cases hfirst : a < indexChunkSize
  · have hin : a < rounds x.numSets * indexChunkSize := hfirst.trans_le (Nat.le_mul_of_pos_left _ (rounds_pos _))
    rw [if_pos hin, if_pos hfirst, Nat.mod_eq_of_lt hfirst]
  · rw [if_neg hfirst]
    rcases rounds_cases x with ⟨hsmall, hcover⟩ | ⟨hlarge, hone⟩
    · rw [if_pos (ha.trans_le hcover), if_pos hsmall]
    · rw [hone, Nat.one_mul, if_neg hfirst, if_neg (Int.not_le.mpr hlarge)]

theorem readsBack_iff (x : Allocation) (m m₀ : Memory) (file : File) : ReadsBack x m m₀ file ↔ Repeats x m m₀ file := by
  constructor
  · intro h a ha hbehind
    have hbyte := h a ha
    rw [initIndex_save x m m₀ file ha, if_neg (Nat.not_lt.mpr hbehind)] at hbyte
    exact hbyte.symm
  · intro h a ha
    rw [initIndex_save x m m₀ file ha]
    split
    · rfl
    · next hbehind => exact (h a ha (Nat.le_of_not_lt hbehind)).symm

/-- A cycle of writes ends where it began, and not before. The index comes back from the file and no write reads past it exactly if the
index repeats its first chunk and a chunk fits into the block behind the gap. -/
theorem saved_index_iff (x : Allocation) (m m₀ : Memory) (file : File) :
    (save x.numSets m file (rounds x.numSets)).2 = 0 ∧
      (∀ n, 0 < n → n < rounds x.numSets → (save x.numSets m file n).2 ≠ 0) ∧
      (ReadsBack x m m₀ file ∧ ReadsInside x ↔ Repeats x m m₀ file ∧ x.gap + indexChunkSize ≤ x.size) := by
  have hoff {n : Nat} (hpos : 0 < n) (hn : n ≤ rounds x.numSets) :
      (save x.numSets m file n).2 = if n = rounds x.numSets then 0 else n * indexChunkSize := by
    obtain ⟨k, rfl⟩ := Nat.exists_eq_add_one.mpr hpos
    rw [save_eq x.numSets m file (by omega)]
  refine ⟨?_, fun n hpos hn => ?_, ?_⟩
  · rw [hoff (rounds_pos _) le_rfl, if_pos rfl]
  · rw [hoff hpos hn.le, if_neg hn.ne]
    exact Nat.mul_ne_zero hpos.ne' (by decide)
  · rw [readsBack_iff, readsInside_iff]

/-- The index of 99880 objects, which is larger than a chunk. -/
def largeIndex : Allocation := ⟨numSetsOf 99880, 8192, by decide⟩

/-- The index of 8 objects. -/
def smallIndex : Allocation := ⟨numSetsOf 8, 8192, by decide⟩

/-- The clocks of the set 12484 come back as the header of another set, and of the small index every write reads past the block. -/
theorem saved_index_lost :
    ¬ReadsBack largeIndex (initIndex largeIndex.numSets .CREATE ⟨0, fun _ => 0⟩ fun _ => 0) (fun _ => 0) ⟨0, fun _ => 0⟩ ∧
      ¬ReadsInside smallIndex := by
  constructor
  · intro h
    have hsets : largeIndex.numSets = 12485 := by decide
    have hrounds : rounds 12485 = 2 := by decide
    rw [ReadsBack, hsets, hrounds] at h
    have hsame : setAt (initIndex 12485 .REUSEV (save 12485 (initSets 12485 fun _ => 0) ⟨0, fun _ => 0⟩ 2).1 fun _ => 0) 12484 =
        setAt (initSets 12485 fun _ => 0) 12484 := by
      apply setAt_congr
      intro n hlo hhi
      have hin : n / 8 < 12485 * setBytes := by
        unfold setBytes at hlo hhi ⊢
        omega
      exact congrArg (fun b : BitVec 8 => b.getLsbD (n % 8)) (h (n / 8) hin)
    have hheader : load (initSets 12485 fun _ => 0) (headersAt 1 (⟨7, by decide⟩ : Fin ways)) 4 = 0 :=
      load_header_initSets _ (by decide) _
    have hread := shifted_clocks (fun _ => 0) hheader ⟨1, by decide⟩
    have hkept := congrArg (fun set => set.clocks ⟨1, by decide⟩) hsame
    have hfresh := congrArg (fun set => set.clocks ⟨1, by decide⟩) (setAt_initSets (fun _ => 0) (by decide : 12484 < 12485))
    exact absurd (hread.symm.trans (hkept.trans hfresh)) (by decide)
  · rw [readsInside_iff]
    decide

end BeagleCache.Sets

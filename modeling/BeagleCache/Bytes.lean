import BeagleCache.Outcome

/-! Byte strings and the integers inside them. Messages between proxies carry integers in network
order (`htonl`, `htons`), the full-tree encoding copies them from memory, where the machines this
program runs on keep the low byte first. -/

namespace BeagleCache

/-- An octet, the source's `u_char`. -/
abbrev Byte := BitVec 8

/-- A byte string. A pointer into a buffer is the byte string that starts there. -/
abbrev Bytes := List Byte

/-- A 16-bit integer in network order. -/
def htons (x : BitVec 16) : Bytes := [x.extractLsb' 8 8, x.extractLsb' 0 8]

/-- A 32-bit integer in network order. -/
def htonl (x : BitVec 32) : Bytes :=
  [x.extractLsb' 24 8, x.extractLsb' 16 8, x.extractLsb' 8 8, x.extractLsb' 0 8]

/-- A 32-bit integer as it lies in memory. -/
def memInt (x : BitVec 32) : Bytes :=
  [x.extractLsb' 0 8, x.extractLsb' 8 8, x.extractLsb' 16 8, x.extractLsb' 24 8]

/-- Reads a 16-bit integer in network order from two bytes. -/
def ntohs : Bytes → BitVec 16
  | [a, b] => a ++ b
  | _ => 0

/-- Reads a 32-bit integer in network order from four bytes. -/
def ntohl : Bytes → BitVec 32
  | [a, b, c, d] => a ++ b ++ c ++ d
  | _ => 0

/-- Reads a 32-bit integer as it lies in memory. -/
def intMem : Bytes → BitVec 32
  | [a, b, c, d] => d ++ c ++ b ++ a
  | _ => 0

@[simp] theorem htons_length (x : BitVec 16) : (htons x).length = 2 := rfl

@[simp] theorem htonl_length (x : BitVec 32) : (htonl x).length = 4 := rfl

@[simp] theorem memInt_length (x : BitVec 32) : (memInt x).length = 4 := rfl

@[simp] theorem ntohs_htons (x : BitVec 16) : ntohs (htons x) = x := by
  apply BitVec.eq_of_getLsbD_eq
  intro i hi
  simp only [ntohs, htons, BitVec.getLsbD_append, BitVec.getLsbD_extractLsb']
  by_cases h8 : i < 8
  · simp [h8]
  · have hlt : i - 8 < 8 := by omega
    have hsum : 8 + (i - 8) = i := by omega
    simp [h8, hlt, hsum]

/-- Four bytes cut out of a word give the word back. -/
theorem append_extract_bytes (x : BitVec 32) :
    x.extractLsb' 24 8 ++ x.extractLsb' 16 8 ++ x.extractLsb' 8 8 ++ x.extractLsb' 0 8 = x := by
  apply BitVec.eq_of_getLsbD_eq
  intro i hi
  simp only [BitVec.getLsbD_append, BitVec.getLsbD_extractLsb']
  by_cases h8 : i < 8
  · simp [h8]
  · by_cases h16 : i < 16
    · have hlt : i - 8 < 8 := by omega
      have hsum : 8 + (i - 8) = i := by omega
      simp [h8, hlt, hsum]
    · by_cases h24 : i < 24
      · have hge : ¬ i - 8 < 8 := by omega
        have hlt : i - 8 - 8 < 8 := by omega
        have hsum : 16 + (i - 8 - 8) = i := by omega
        simp [h8, hge, hlt, hsum]
      · have hge : ¬ i - 8 < 8 := by omega
        have hge' : ¬ i - 8 - 8 < 8 := by omega
        have hlt : i - 8 - 8 - 8 < 8 := by omega
        have hsum : 24 + (i - 8 - 8 - 8) = i := by omega
        simp [h8, hge, hge', hlt, hsum]

@[simp] theorem ntohl_htonl (x : BitVec 32) : ntohl (htonl x) = x := append_extract_bytes x

@[simp] theorem intMem_memInt (x : BitVec 32) : intMem (memInt x) = x := append_extract_bytes x

/-- A small number is the same as an `int`. -/
theorem toInt_ofNat_of_lt {k : Nat} (hk : k < 2 ^ 31) : (BitVec.ofNat 32 k).toInt = k := by
  rw [BitVec.toInt_eq_toNat_of_lt] <;> rw [BitVec.toNat_ofNat] <;> omega

theorem toNat_ofNat_of_lt {k : Nat} (hk : k < 2 ^ 31) : (BitVec.ofNat 32 k).toNat = k := by
  rw [BitVec.toNat_ofNat]
  omega

/-- The `n` bytes at offset `off`; reading past the end of the buffer is an overrun. -/
def readAt (buffer : Bytes) (off n : Nat) : Run Bytes :=
  if off + n ≤ buffer.length then .ok ((buffer.drop off).take n) else .error .overrun

theorem readAt_length {buffer bytes : Bytes} {off n : Nat} (h : readAt buffer off n = .ok bytes) : bytes.length = n := by
  unfold readAt at h
  split at h
  · cases h
    rw [List.length_take, List.length_drop]
    omega
  · cases h

/-- A read inside a known middle part of a buffer returns that part. -/
theorem readAt_append (pre mid post : Bytes) :
    readAt (pre ++ mid ++ post) pre.length mid.length = .ok mid := by
  unfold readAt
  rw [if_pos (by simp)]
  simp [List.append_assoc]

/-- A read behind a known first part of a buffer. -/
theorem readAt_skip (pre rest : Bytes) {off k n : Nat} (hoff : off = pre.length + k) :
    readAt (pre ++ rest) off n = readAt rest k n := by
  subst hoff
  unfold readAt
  have hiff : pre.length + k + n ≤ (pre ++ rest).length ↔ k + n ≤ rest.length := by
    rw [List.length_append]
    omega
  simp only [hiff, List.drop_append, Nat.add_sub_cancel_left,
    List.drop_eq_nil_of_le (Nat.le_add_right pre.length k), List.nil_append]

theorem readAt_of_eq {buffer pre mid post : Bytes} {off n : Nat} (hbuf : buffer = pre ++ mid ++ post)
    (hoff : off = pre.length) (hn : n = mid.length) : readAt buffer off n = .ok mid := by
  subst hbuf hoff hn
  exact readAt_append pre mid post

/-- The 16-bit integer in network order at offset `off`. -/
def readU16 (buffer : Bytes) (off : Nat) : Run (BitVec 16) := do
  let bytes ← readAt buffer off 2
  return ntohs bytes

/-- The 32-bit integer in network order at offset `off`. -/
def readU32 (buffer : Bytes) (off : Nat) : Run (BitVec 32) := do
  let bytes ← readAt buffer off 4
  return ntohl bytes

/-- An `int` as it lies in memory at offset `off`. -/
def readInt (buffer : Bytes) (off : Nat) : Run (BitVec 32) := do
  let bytes ← readAt buffer off 4
  return intMem bytes

theorem readU16_skip (pre rest : Bytes) {off k : Nat} (hoff : off = pre.length + k) :
    readU16 (pre ++ rest) off = readU16 rest k := by
  rw [readU16, readAt_skip pre rest hoff, readU16]

theorem readU32_skip (pre rest : Bytes) {off k : Nat} (hoff : off = pre.length + k) :
    readU32 (pre ++ rest) off = readU32 rest k := by
  rw [readU32, readAt_skip pre rest hoff, readU32]

theorem readAt_head (mid post : Bytes) {n : Nat} (hn : n = mid.length) : readAt (mid ++ post) 0 n = .ok mid := by
  exact readAt_of_eq (show mid ++ post = [] ++ mid ++ post from rfl) rfl hn

theorem readU16_head (x : BitVec 16) (post : Bytes) : readU16 (htons x ++ post) 0 = .ok x := by
  rw [readU16, readAt_head (htons x) post (htons_length x).symm, Run.ok_bind, ntohs_htons]
  rfl

theorem readU32_head (x : BitVec 32) (post : Bytes) : readU32 (htonl x ++ post) 0 = .ok x := by
  rw [readU32, readAt_head (htonl x) post (htonl_length x).symm, Run.ok_bind, ntohl_htonl]
  rfl

theorem readInt_skip (pre rest : Bytes) {off k : Nat} (hoff : off = pre.length + k) :
    readInt (pre ++ rest) off = readInt rest k := by
  rw [readInt, readAt_skip pre rest hoff, readInt]

theorem readInt_head (x : BitVec 32) (post : Bytes) : readInt (memInt x ++ post) 0 = .ok x := by
  rw [readInt, readAt_head (memInt x) post (memInt_length x).symm, Run.ok_bind, intMem_memInt]
  rfl

end BeagleCache

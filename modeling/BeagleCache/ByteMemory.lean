import Mathlib.Tactic

/-! A memory of bytes in which a number has its low byte first, seen as one row of bits: what loads, stores and writes under
a mask do to it. -/

namespace ByteMemory

abbrev Memory := Nat → BitVec 8

/-- The bit `n` of the memory, from the lowest of the first byte on. -/
def bit (m : Memory) (n : Nat) : Bool := (m (n / 8)).getLsbD (n % 8)

/-- The number in the `n` bytes from `a` on. -/
def load (m : Memory) (a : Nat) : (n : Nat) → BitVec (8 * n)
  | 0 => 0
  | n + 1 => (load m (a + 1) n ++ m a : BitVec (8 * n + 8))

def store (m : Memory) (a n : Nat) (v : BitVec (8 * n)) : Memory :=
  fun b => if a ≤ b ∧ b < a + n then v.extractLsb' (8 * (b - a)) 8 else m b

theorem getLsbD_load (m : Memory) (a n i : Nat) : (load m a n).getLsbD i = (decide (i < 8 * n) && bit m (8 * a + i)) := by
  induction n generalizing a i with
  | zero => simp [load]
  | succ n ih =>
      have hsplit : (load m a (n + 1)).getLsbD i = if i < 8 then (m a).getLsbD i else (load m (a + 1) n).getLsbD (i - 8) :=
        BitVec.getLsbD_append
      rw [hsplit]
      split
      · next hi =>
          have hbyte : (8 * a + i) / 8 = a := by omega
          have hplace : (8 * a + i) % 8 = i := by omega
          have hin : i < 8 * (n + 1) := by omega
          simp [bit, hbyte, hplace, hin]
      · next hi =>
          have hbit : 8 * (a + 1) + (i - 8) = 8 * a + i := by omega
          have hin : i - 8 < 8 * n ↔ i < 8 * (n + 1) := by omega
          simp only [ih, hbit, hin]

theorem bit_store (m : Memory) (a n : Nat) (v : BitVec (8 * n)) (i : Nat) :
    bit (store m a n v) i = if 8 * a ≤ i ∧ i < 8 * (a + n) then v.getLsbD (i - 8 * a) else bit m i := by
  have hin : (a ≤ i / 8 ∧ i / 8 < a + n) ↔ (8 * a ≤ i ∧ i < 8 * (a + n)) := by omega
  simp only [bit, store, hin]
  split
  · next h =>
      have hplace : 8 * (i / 8 - a) + i % 8 = i - 8 * a := by omega
      have hlt : i % 8 < 8 := Nat.mod_lt _ (by decide)
      simp [hplace, hlt]
  · rfl

/-- A load depends on nothing but its bits. -/
theorem load_congr {m m' : Memory} {a n : Nat} (h : ∀ i, 8 * a ≤ i → i < 8 * (a + n) → bit m i = bit m' i) :
    load m a n = load m' a n := by
  apply BitVec.eq_of_getLsbD_eq
  intro i hi
  rw [getLsbD_load, getLsbD_load, h (8 * a + i) (by omega) (by omega)]

@[simp] theorem load_store (m : Memory) (a n : Nat) (v : BitVec (8 * n)) : load (store m a n v) a n = v := by
  apply BitVec.eq_of_getLsbD_eq
  intro i hi
  have hin : 8 * a ≤ 8 * a + i ∧ 8 * a + i < 8 * (a + n) := by omega
  rw [getLsbD_load, bit_store, if_pos hin, Nat.add_sub_cancel_left]
  simp [hi]

/-- A load beside a store. -/
theorem load_store_of_disjoint {m : Memory} {a b n k : Nat} {v : BitVec (8 * k)} (h : a + n ≤ b ∨ b + k ≤ a) :
    load (store m b k v) a n = load m a n := by
  apply load_congr
  intro i hlo hhi
  rw [bit_store, if_neg (by omega)]

/-- The number that has the bits of `n` under the mask and those of `x` elsewhere. -/
theorem getLsbD_masked {w : Nat} (x n mask : BitVec w) (i : Nat) :
    (x ^^^ ((x ^^^ n) &&& mask)).getLsbD i = if mask.getLsbD i then n.getLsbD i else x.getLsbD i := by
  simp only [BitVec.getLsbD_xor, BitVec.getLsbD_and]
  cases mask.getLsbD i <;> cases x.getLsbD i <;> cases n.getLsbD i <;> rfl

/-- A run of ones, from the bit `s` on. -/
theorem getLsbD_ones {w k : Nat} (s i : Nat) (h : i < w) :
    (BitVec.ofNat w (2 ^ k - 1) <<< s).getLsbD i = decide (s ≤ i ∧ i < s + k) := by
  simp only [BitVec.getLsbD_shiftLeft, BitVec.getLsbD_ofNat, Nat.testBit_two_pow_sub_one, h, decide_true, Bool.true_and]
  by_cases hs : i < s
  · have hout : ¬(s ≤ i ∧ i < s + k) := by omega
    simp [hs, hout]
  · have hlt : i - s < w := by omega
    have hin : (i - s < k) ↔ (s ≤ i ∧ i < s + k) := by omega
    simp [hs, hlt, hin]

/-- A loop whose body changes one field, as `f` does, and no other field of those it goes over. -/
theorem foldl_field {σ ι α : Type} [DecidableEq ι] (get : σ → ι → α) (step : σ → ι → σ) (f : ι → α → α)
    (hself : ∀ s i, get (step s i) i = f i (get s i)) (hother : ∀ s i j, j ≠ i → get (step s i) j = get s j)
    (l : List ι) (hnodup : l.Nodup) (s : σ) (j : ι) :
    get (l.foldl step s) j = if j ∈ l then f j (get s j) else get s j := by
  induction l generalizing s with
  | nil => simp
  | cons i l ih =>
      have hi : i ∉ l := (List.nodup_cons.mp hnodup).1
      rw [List.foldl_cons, ih (List.nodup_cons.mp hnodup).2]
      by_cases hj : j = i
      · subst hj
        simp [hi, hself]
      · simp [hj, hother _ _ _ hj]

end ByteMemory

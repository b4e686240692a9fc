import Mathlib.Tactic
import BeagleCache.BinaryPolynomial
import BeagleCache.RabinScan

/-! The words of `rabinfinger2.c` as polynomials over GF(2). `MultiplyPoly` multiplies them and `GetFingerprint` takes a remainder; with the
tables that are made of both, the fingerprint that `ConcatByte` keeps is the remainder of the last bytes. -/

namespace BeagleCache.RabinResidue

open BinaryPolynomial
open Polynomial

/-! ## `GetDegree` -/

theorem and_bit_eq_zero (x : U64) {i : Nat} (hi : i < 64) : x &&& (1#64 <<< i) = 0 ↔ x.getLsbD i = false := by
  rw [← BitVec.twoPow_eq, BitVec.and_twoPow]
  cases x.getLsbD i with
  | true =>
      have hne : BitVec.twoPow 64 i ≠ 0 := by
        intro hzero
        have hbit := congrArg (fun z => BitVec.getLsbD z i) hzero
        simp [hi] at hbit
      simpa using hne
  | false => simp

theorem and_bit_ne_zero (x : U64) {i : Nat} (hi : i < 64) (hbit : x.getLsbD i = true) : x &&& (1#64 <<< i) ≠ 0 := by
  intro hzero
  cases hbit.symm.trans ((and_bit_eq_zero x hi).mp hzero)

theorem getDegreeFrom_spec (poly : U64) {k : Nat} (hk : k < 64) (hhigh : ∀ i, k < i → poly.getLsbD i = false) :
    getDegreeFrom poly k ≤ k ∧ (∀ i, getDegreeFrom poly k < i → poly.getLsbD i = false) ∧
      (poly ≠ 0 → poly.getLsbD (getDegreeFrom poly k) = true) := by
  induction k with
  | zero =>
      refine ⟨Nat.le_refl _, hhigh, fun hne => ?_⟩
      by_contra hbit
      apply hne
      apply BitVec.eq_of_getLsbD_eq
      intro i _
      cases i with
      | zero =>
          rw [Bool.not_eq_true] at hbit
          exact hbit.trans BitVec.getLsbD_zero.symm
      | succ i => exact (hhigh (i + 1) (Nat.succ_pos i)).trans BitVec.getLsbD_zero.symm
  | succ k ih =>
      rw [getDegreeFrom]
      by_cases hbit : poly.getLsbD (k + 1) = true
      · rw [if_neg (and_bit_ne_zero poly hk hbit)]
        exact ⟨Nat.le_refl _, hhigh, fun _ => hbit⟩
      · have hfalse : poly.getLsbD (k + 1) = false := by simpa using hbit
        have hhigh' : ∀ i, k < i → poly.getLsbD i = false := by
          intro i hi
          by_cases hnext : i = k + 1
          · rw [hnext, hfalse]
          · exact hhigh i (by omega)
        obtain ⟨hle, hzero, hset⟩ := ih (by omega) hhigh'
        rw [if_pos ((and_bit_eq_zero poly hk).mpr hfalse)]
        exact ⟨hle.trans (Nat.le_succ k), hzero, hset⟩

/-- The highest bit that is set. -/
theorem getDegree_spec (poly : U64) : getDegree poly ≤ 63 ∧ (∀ i, getDegree poly < i → poly.getLsbD i = false) ∧
    (poly ≠ 0 → poly.getLsbD (getDegree poly) = true) :=
  getDegreeFrom_spec poly (by decide) fun i hi => BitVec.getLsbD_of_ge poly i hi

theorem degree_getDegree {poly : U64} (h : poly ≠ 0) : (toPoly poly).degree = getDegree poly :=
  degree_toPoly ((getDegree_spec poly).2.2 h) (getDegree_spec poly).2.1

/-! ## `GetFingerprint` -/

section Reduce

variable {poly : U64}

/-- Each round takes a multiple of the polynomial away, until nothing is left of the high word. -/
theorem reduceHigh_spec (hpoly : poly.getLsbD 63 = true) {n : Nat} (hn : n ≤ 63) (h l : U64) (hh : ∀ i, n ≤ i → h.getLsbD i = false) :
    ∃ q, X ^ 64 * toPoly h + toPoly l = toPoly (reduceHigh poly n h l).2 + q * toPoly poly := by
  induction n generalizing h l with
  | zero =>
      have hzero : h = 0 := BitVec.eq_of_getLsbD_eq fun i _ => by simpa using hh i (Nat.zero_le i)
      refine ⟨0, ?_⟩
      rw [hzero, toPoly_zero, reduceHigh]
      ring
  | succ n ih =>
      rw [reduceHigh]
      by_cases hbit : h.getLsbD n = true
      · have hne := and_bit_ne_zero h (show n < 64 by omega) hbit
        have hlow : ∀ i, n ≤ i → (h ^^^ (poly >>> (63 - n))).getLsbD i = false := by
          intro i hi
          rw [BitVec.getLsbD_xor, BitVec.getLsbD_ushiftRight]
          by_cases hin : i = n
          · have htop : 63 - n + n = 63 := by omega
            rw [hin, htop, hbit, hpoly]
            rfl
          · rw [hh i (by omega), BitVec.getLsbD_of_ge poly _ (by omega)]
            rfl
        obtain ⟨q, hq⟩ := ih (by omega) (h ^^^ (poly >>> (63 - n))) (l ^^^ (poly <<< (n + 1))) hlow
        have hshift := toPoly_shift poly (show n + 1 + (63 - n) = 64 by omega)
        simp only [toPoly_xor] at hq
        refine ⟨q + X ^ (n + 1), ?_⟩
        rw [if_pos hne]
        linear_combination hq + hshift - X ^ (n + 1) * toPoly poly * two_eq_zero
      · have hfalse : h.getLsbD n = false := by simpa using hbit
        have hlow : ∀ i, n ≤ i → h.getLsbD i = false := by
          intro i hi
          by_cases hin : i = n
          · rw [hin, hfalse]
          · exact hh i (by omega)
        rw [if_neg (not_not.mpr ((and_bit_eq_zero h (show n < 64 by omega)).mpr hfalse))]
        exact ih (by omega) h l hlow

/-- The multiples that are taken away from the low word. -/
theorem reduceLow_spec {k : Nat} (hk : poly.getLsbD k = true) (hpoly : ∀ i, k < i → poly.getLsbD i = false) {n : Nat}
    (hn : k + n ≤ 64) (l : U64)
    (hl : ∀ i, k + n ≤ i → l.getLsbD i = false) :
    (∃ q, toPoly l = toPoly (reduceLow (poly <<< (63 - k)) k n l) + q * toPoly poly) ∧
      ∀ i, k ≤ i → (reduceLow (poly <<< (63 - k)) k n l).getLsbD i = false := by
  induction n generalizing l with
  | zero => exact ⟨⟨0, by rw [reduceLow]; ring⟩, hl⟩
  | succ n ih =>
      rw [reduceLow]
      by_cases hbit : l.getLsbD (k + n) = true
      · have hne := and_bit_ne_zero l (show k + n < 64 by omega) hbit
        have hback : (poly <<< (63 - k)) >>> (63 - (k + n)) = poly <<< n := by
          apply BitVec.eq_of_getLsbD_eq
          intro i hi
          rw [BitVec.getLsbD_ushiftRight, BitVec.getLsbD_shiftLeft, BitVec.getLsbD_shiftLeft]
          by_cases hin : i < n
          · have hlow : 63 - (k + n) + i < 63 - k := by omega
            simp [hin, hlow]
          · by_cases hout : 63 - (k + n) + i < 64
            · have hsame : 63 - (k + n) + i - (63 - k) = i - n := by omega
              have hge : ¬63 - (k + n) + i < 63 - k := by omega
              simp [hin, hout, hge, hi, hsame]
            · have hzero : poly.getLsbD (i - n) = false := hpoly _ (by omega)
              simp [hout, hzero]
        have hkept : poly >>> (64 - n) = 0 := by
          apply BitVec.eq_of_getLsbD_eq
          intro i hi
          rw [BitVec.getLsbD_ushiftRight, hpoly _ (by omega)]
          simp
        have hlow : ∀ i, k + n ≤ i → (l ^^^ (poly <<< n)).getLsbD i = false := by
          intro i hi
          rw [BitVec.getLsbD_xor, BitVec.getLsbD_shiftLeft]
          by_cases hin : i = k + n
          · have hinside : k + n < 64 := by omega
            have hback' : k + n - n = k := by omega
            have hge : ¬k + n < n := by omega
            rw [hin, hbit, hback', hk]
            simp [hinside]
          · rw [hl i (by omega), hpoly (i - n) (by omega)]
            simp
        obtain ⟨⟨q, hq⟩, hzero⟩ := ih (by omega) (l ^^^ (poly <<< n)) hlow
        rw [if_pos hne, hback]
        refine ⟨⟨q + X ^ n, ?_⟩, hzero⟩
        simp only [toPoly_xor, toPoly_shiftLeft (show n + (64 - n) = 64 by omega) hkept] at hq
        linear_combination hq - X ^ n * toPoly poly * two_eq_zero
      · have hfalse : l.getLsbD (k + n) = false := by simpa using hbit
        have hlow : ∀ i, k + n ≤ i → l.getLsbD i = false := by
          intro i hi
          by_cases hin : i = k + n
          · rw [hin, hfalse]
          · exact hl i (by omega)
        rw [if_neg (not_not.mpr ((and_bit_eq_zero l (show k + n < 64 by omega)).mpr hfalse))]
        exact ih (by omega) l hlow

/-- `GetFingerprint` is the remainder of the polynomial of both words. -/
theorem getFingerprint_eq (hne : poly ≠ 0) (h l : U64) : toPoly (getFingerprint h l poly) = toPoly (h ++ l) % toPoly poly := by
  obtain ⟨hk, hhigh, hset⟩ := getDegree_spec poly
  have hbit := hset hne
  have hdegree := degree_getDegree hne
  unfold getFingerprint
  dsimp only
  generalize getDegree poly = k at hk hhigh hbit hdegree ⊢
  have hkept : poly >>> (k + 1) = 0 := by
    apply BitVec.eq_of_getLsbD_eq
    intro i hi
    rw [BitVec.getLsbD_ushiftRight, hhigh _ (by omega)]
    simp
  have hshifted : toPoly (poly <<< (63 - k)) = X ^ (63 - k) * toPoly poly := toPoly_shiftLeft (show 63 - k + (k + 1) = 64 by omega) hkept
  have htop : (poly <<< (63 - k)).getLsbD 63 = true := by
    have hback : 63 - (63 - k) = k := by omega
    rw [BitVec.getLsbD_shiftLeft, hback, hbit]
    simp
  have hhighword : ∃ l' q, (if h ≠ 0 then
      (reduceHigh (poly <<< (63 - k)) 63 (if h &&& (1#64 <<< 63) ≠ 0 then h ^^^ (poly <<< (63 - k)) else h) l).2 else l) = l' ∧
        X ^ 64 * toPoly h + toPoly l = toPoly l' + q * toPoly poly := by
    by_cases hzero : h = 0
    · refine ⟨l, 0, if_neg (not_not.mpr hzero), ?_⟩
      rw [hzero, toPoly_zero]
      ring
    · rw [if_pos hzero]
      by_cases hmsb : h.getLsbD 63 = true
      · have hlow : ∀ i, 63 ≤ i → (h ^^^ (poly <<< (63 - k))).getLsbD i = false := by
          intro i hi
          by_cases hlast : i = 63
          · rw [hlast, BitVec.getLsbD_xor, hmsb, htop]
            rfl
          · exact BitVec.getLsbD_of_ge _ i (by omega)
        obtain ⟨q, hq⟩ := reduceHigh_spec htop (Nat.le_refl 63) _ l hlow
        rw [if_pos (and_bit_ne_zero h (by decide) hmsb)]
        refine ⟨_, (q + X ^ 64) * X ^ (63 - k), rfl, ?_⟩
        simp only [toPoly_xor, hshifted] at hq
        linear_combination hq - X ^ 64 * X ^ (63 - k) * toPoly poly * two_eq_zero
      · have hfalse : h.getLsbD 63 = false := by simpa using hmsb
        have hlow : ∀ i, 63 ≤ i → h.getLsbD i = false := by
          intro i hi
          by_cases hlast : i = 63
          · rw [hlast, hfalse]
          · exact BitVec.getLsbD_of_ge h i (by omega)
        obtain ⟨q, hq⟩ := reduceHigh_spec htop (Nat.le_refl 63) h l hlow
        rw [if_neg (not_not.mpr ((and_bit_eq_zero h (by decide)).mpr hfalse))]
        refine ⟨_, q * X ^ (63 - k), rfl, ?_⟩
        rw [hshifted] at hq
        linear_combination hq
  obtain ⟨l', q, hl', hq⟩ := hhighword
  rw [hl']
  have hwidth : k + (64 - k) = 64 := by omega
  obtain ⟨⟨q', hq'⟩, hzero⟩ := reduceLow_spec hbit hhigh hwidth.le l' fun i hi => BitVec.getLsbD_of_ge l' i (by omega)
  refine eq_mod (q := q + q') ?_ ?_
  · rw [hdegree]
    exact degree_toPoly_lt.mpr hzero
  · rw [toPoly_append]
    linear_combination hq + hq'

end Reduce

/-! ## `MultiplyPoly` -/

/-- A round for each bit adds the other factor, shifted by the place of the bit. -/
theorem multiplyLoop_spec (x y : U64) {n : Nat} (hn : n ≤ 63) (ih il : U64) :
    X ^ 64 * toPoly (multiplyLoop x y n ih il).1 + toPoly (multiplyLoop x y n ih il).2 =
      X ^ 64 * toPoly ih + toPoly il + (∑ i ∈ Finset.range n, if x.getLsbD (i + 1) = true then X ^ (i + 1) else 0) * toPoly y := by
  induction n generalizing ih il with
  | zero =>
      rw [multiplyLoop, Finset.sum_range_zero]
      ring
  | succ n hrest =>
      rw [multiplyLoop, Finset.sum_range_succ]
      by_cases hbit : x.getLsbD (n + 1) = true
      · have hshift := toPoly_shift y (show n + 1 + (64 - (n + 1)) = 64 by omega)
        rw [if_pos (and_bit_ne_zero x (by omega) hbit), if_pos hbit, hrest (by omega)]
        simp only [toPoly_xor]
        linear_combination -hshift
      · have hfalse : x.getLsbD (n + 1) = false := by simpa using hbit
        rw [if_neg (not_not.mpr ((and_bit_eq_zero x (by omega)).mpr hfalse)), if_neg hbit, hrest (by omega), add_zero]

/-- `MultiplyPoly` is the product, in two words. -/
theorem multiplyPoly_eq (x y : U64) : toPoly ((multiplyPoly x y).1 ++ (multiplyPoly x y).2) = toPoly x * toPoly y := by
  have hlow : toPoly (if x &&& 1 ≠ 0 then y else 0) = (if x.getLsbD 0 = true then X ^ 0 else 0) * toPoly y := by
    by_cases hbit : x.getLsbD 0 = true
    · have hne : x &&& 1 ≠ 0 := and_bit_ne_zero x (by decide) hbit
      rw [if_pos hne, if_pos hbit, pow_zero, one_mul]
    · have hzero : x &&& 1 = 0 := (and_bit_eq_zero x (show 0 < 64 by decide)).mpr (Bool.eq_false_of_not_eq_true hbit)
      rw [if_neg (not_not.mpr hzero), if_neg hbit, toPoly_zero, zero_mul]
  have hx : toPoly x =
      (∑ i ∈ Finset.range 63, if x.getLsbD (i + 1) = true then X ^ (i + 1) else 0) + if x.getLsbD 0 = true then X ^ 0 else 0 :=
    Finset.sum_range_succ' _ 63
  unfold multiplyPoly
  rw [toPoly_append, multiplyLoop_spec x y (Nat.le_refl 63), toPoly_zero, hlow, hx]
  ring

/-! ## The tables -/

theorem getDegree_irreduciblePoly : getDegree irreduciblePoly = 63 := by decide

theorem irreduciblePoly_ne_zero : irreduciblePoly ≠ 0 := by decide

theorem degree_irreduciblePoly : (toPoly irreduciblePoly).degree = (63 : Nat) := by
  rw [degree_getDegree irreduciblePoly_ne_zero, getDegree_irreduciblePoly]

/-- The remainder of a product that was written into two words. -/
theorem getFingerprint_multiplyPoly (x y : U64) :
    toPoly (getFingerprint (multiplyPoly x y).1 (multiplyPoly x y).2 irreduciblePoly) = toPoly x * toPoly y % toPoly irreduciblePoly := by
  rw [getFingerprint_eq irreduciblePoly_ne_zero, multiplyPoly_eq]

theorem degree_mod_lt_63 (f : (ZMod 2)[X]) : (f % toPoly irreduciblePoly).degree < (63 : Nat) := by
  rw [← degree_irreduciblePoly]
  exact degree_mod_lt f (toPoly_ne_zero irreduciblePoly_ne_zero)

theorem toPoly_one_shiftLeft : toPoly (1#64 <<< 63) = X ^ 63 := by
  have hkept : (1#64 : U64) >>> 1 = 0 := by decide
  rw [toPoly_shiftLeft (show 63 + 1 = 64 by decide) hkept, toPoly_one (by decide), mul_one]

/-- What is shifted out of a fingerprint comes back as a remainder. -/
theorem moduloTable_spec (i : Nat) : ∃ g : U64, moduloTable irreduciblePoly 63 i = g ||| (BitVec.ofNat 64 i <<< 63) ∧
    toPoly g = toPoly (BitVec.ofNat 64 i) * X ^ 63 % toPoly irreduciblePoly := by
  refine ⟨_, rfl, ?_⟩
  rw [getFingerprint_multiplyPoly, getFingerprint_eq irreduciblePoly_ne_zero, mul_mod_right, toPoly_append, toPoly_zero, mul_zero, zero_add,
    toPoly_one_shiftLeft]

/-- A byte is shifted into a remainder. -/
theorem shiftByte_spec (finger : U64) (b : Byte) :
    toPoly (((finger <<< 8) ||| b.setWidth 64) ^^^ moduloTable irreduciblePoly 63 (finger >>> 55).toNat) =
      (X ^ 8 * toPoly finger + toPoly b) % toPoly irreduciblePoly := by
  obtain ⟨g, hg, hrem⟩ := moduloTable_spec (finger >>> 55).toNat
  rw [BitVec.ofNat_toNat, BitVec.setWidth_eq] at hg hrem
  have hgdegree : ∀ i, 63 ≤ i → g.getLsbD i = false := degree_toPoly_lt.mp (hrem ▸ degree_mod_lt_63 _)
  have hbyte : (finger <<< 8) &&& b.setWidth 64 = 0 := by
    apply BitVec.eq_of_getLsbD_eq
    intro i _
    rw [BitVec.getLsbD_and, BitVec.getLsbD_shiftLeft, BitVec.getLsbD_setWidth]
    by_cases hi : i < 8
    · simp [hi]
    · simp [BitVec.getLsbD_of_ge b i (Nat.not_lt.mp hi)]
  have htop : g &&& ((finger >>> 55) <<< 63) = 0 := by
    apply BitVec.eq_of_getLsbD_eq
    intro i _
    rw [BitVec.getLsbD_and, BitVec.getLsbD_shiftLeft]
    by_cases hi : i < 63
    · simp [hi]
    · simp [hgdegree i (Nat.not_lt.mp hi)]
  have hfinger := toPoly_shift finger (show 8 + 56 = 64 by decide)
  have hindex := toPoly_shift (finger >>> 55) (show 63 + 1 = 64 by decide)
  have hsame : (finger >>> 55) >>> 1 = finger >>> 56 := (BitVec.shiftRight_add finger 55 1).symm
  rw [hsame] at hindex
  obtain ⟨q, hq⟩ : ∃ q, toPoly (finger >>> 55) * X ^ 63 = toPoly g + q * toPoly irreduciblePoly := by
    refine ⟨toPoly (finger >>> 55) * X ^ 63 / toPoly irreduciblePoly, ?_⟩
    have hdivide := EuclideanDomain.div_add_mod (toPoly (finger >>> 55) * X ^ 63) (toPoly irreduciblePoly)
    rw [hrem]
    linear_combination -hdivide
  refine eq_mod (q := q) ?_ ?_
  · rw [degree_irreduciblePoly, degree_toPoly_lt]
    intro i hi
    rw [hg]
    by_cases hlast : i = 63
    · rw [hlast, BitVec.getLsbD_xor, BitVec.getLsbD_or, BitVec.getLsbD_or, BitVec.getLsbD_shiftLeft, BitVec.getLsbD_shiftLeft,
        BitVec.getLsbD_setWidth, BitVec.getLsbD_ushiftRight, hgdegree 63 (Nat.le_refl 63), BitVec.getLsbD_of_ge b 63 (by decide)]
      simp
    · exact BitVec.getLsbD_of_ge _ i (by omega)
  · rw [hg, toPoly_xor, toPoly_or hbyte, toPoly_or htop, toPoly_setWidth b (by decide)]
    linear_combination hfinger - hindex + hq - toPoly ((finger >>> 55) <<< 63) * two_eq_zero

/-- The byte that is `n` bytes old has been shifted `n` times. -/
theorem sizeShift_spec (n : Nat) : toPoly (sizeShift (moduloTable irreduciblePoly 63) 55 n) = X ^ (8 * n) % toPoly irreduciblePoly := by
  induction n with
  | zero =>
      have hone : toPoly (sizeShift (moduloTable irreduciblePoly 63) 55 0) = X ^ (8 * 0) := toPoly_one (by decide)
      rw [hone]
      refine eq_mod (q := 0) ?_ (by ring)
      rw [degree_irreduciblePoly]
      exact (degree_X_pow_le _).trans_lt (by decide)
  | succ n ih =>
      have hshift := shiftByte_spec (sizeShift (moduloTable irreduciblePoly 63) 55 n) 0
      rw [ih, toPoly_zero, add_zero, mul_mod_right, ← pow_add] at hshift
      have hexponent : 8 + 8 * n = 8 * (n + 1) := by ring
      rw [hexponent] at hshift
      rw [← hshift, sizeShift]
      simp

theorem regionTable_spec (window : Nat) (b : Byte) :
    toPoly (regionTable irreduciblePoly (moduloTable irreduciblePoly 63) 55 window b) =
      X ^ (8 * (window - 1)) * toPoly b % toPoly irreduciblePoly := by
  unfold regionTable
  rw [getFingerprint_multiplyPoly, sizeShift_spec, mul_mod_right, toPoly_setWidth b (by decide), mul_comm]

/-! ## The rolling fingerprint -/

theorem rabinTables_eq (window : Nat) : (rabinTables window).moduloT = moduloTable irreduciblePoly 63 ∧ (rabinTables window).shift = 55 ∧
    (rabinTables window).regionT = regionTable irreduciblePoly (moduloTable irreduciblePoly 63) 55 window := by
  unfold rabinTables initializeRabin blankRabinPoly
  rw [getDegree_irreduciblePoly]
  simp

/-- The fingerprint is the remainder of the bytes in the window. -/
def Residue (s : U64 × List Byte) : Prop := toPoly s.1 = ofWords s.2 % toPoly irreduciblePoly

theorem Residue.lt {s : U64 × List Byte} (h : Residue s) : s.1.toNat < 2 ^ 63 :=
  toNat_lt_of_degree (h ▸ degree_mod_lt_63 (ofWords s.2))

/-- The oldest byte is taken out. -/
theorem Residue.takeOut {window : Nat} {s : U64 × List Byte} (h : Residue s) (hlength : s.2.length = window) (hwindow : 0 < window) :
    toPoly (s.1 ^^^ (rabinTables window).regionT (s.2.headD 0)) = ofWords s.2.tail % toPoly irreduciblePoly := by
  obtain ⟨finger, q⟩ := s
  obtain ⟨oldest, others, rfl⟩ := List.exists_cons_of_length_pos (hlength ▸ hwindow)
  have hothers : window - 1 = others.length := by
    rw [← hlength, List.length_cons, Nat.add_sub_cancel]
  have hfinger : toPoly finger = ofWords (oldest :: others) % toPoly irreduciblePoly := h
  have hsum : X ^ (8 * others.length) * toPoly oldest + ofWords others + X ^ (8 * others.length) * toPoly oldest = ofWords others := by
    linear_combination X ^ (8 * others.length) * toPoly oldest * two_eq_zero
  rw [List.headD_cons, List.tail_cons, toPoly_xor, hfinger, (rabinTables_eq window).2.2, regionTable_spec, hothers, ← add_mod,
    ofWords_cons, hsum]

/-- The others get the new byte behind them. -/
theorem Residue.roll {window : Nat} {s : U64 × List Byte} (h : Residue s) (hlength : s.2.length = window) (hwindow : 0 < window)
    (b : Byte) :
    Residue (roll window s b) := by
  have hout := h.takeOut hlength hwindow
  obtain ⟨hmodulo, hshift, -⟩ := rabinTables_eq window
  unfold Residue BeagleCache.roll
  dsimp only
  rw [hmodulo, hshift, shiftByte_spec, hout, ofWords_concat, add_mod, mul_mod_right, ← add_mod]

/-- `ConcatByte` for one byte after the other. -/
def feed (rp : RabinPoly) (finger : U64) (bs : Bytes) : U64 × RabinPoly := bs.foldl (fun s b => concatByte s.2 s.1 b) (finger, rp)

/-- The last `window` bytes, with zeros before them where there are fewer. -/
def lastBytes (window : Nat) (bs : Bytes) : Bytes := (List.replicate window 0 ++ bs).drop bs.length

section Feed

variable {window : Nat} {rp : RabinPoly}

theorem feed_ready (h : rp.Ready window) (finger : U64) (bs : Bytes) : (feed rp finger bs).2.Ready window := by
  induction bs generalizing rp finger with
  | nil => exact h
  | cons b bs ih => exact ih (concatByte_ready h finger b) _

/-- The state of the rolling step, after some bytes. -/
theorem feed_eq (h : rp.Ready window) (finger : U64) (bs : Bytes) :
    ((feed rp finger bs).1, Ring.queue (feed rp finger bs).2.regionBuf (feed rp finger bs).2.regionPos window) =
      bs.foldl (roll window) (finger, Ring.queue rp.regionBuf rp.regionPos window) := by
  induction bs generalizing rp finger with
  | nil => rfl
  | cons b bs ih =>
      rw [List.foldl_cons, ← concatByte_eq_roll h finger b]
      exact ih (concatByte_ready h finger b) _

theorem Residue.foldl {s : U64 × List Byte} (h : Residue s) (hlength : s.2.length = window) (hwindow : 0 < window) (bs : Bytes) :
    Residue (bs.foldl (BeagleCache.roll window) s) ∧ (bs.foldl (BeagleCache.roll window) s).2 = (s.2 ++ bs).drop bs.length := by
  induction bs generalizing s with
  | nil => exact ⟨h, (List.append_nil s.2).symm⟩
  | cons b bs ih =>
      obtain ⟨oldest, others, hq⟩ := List.exists_cons_of_length_pos (hlength ▸ hwindow)
      have hnext : (BeagleCache.roll window s b).2 = others ++ [b] := by
        unfold BeagleCache.roll
        dsimp only
        rw [hq, List.tail_cons]
      have hlength' : (BeagleCache.roll window s b).2.length = window := by
        rw [hnext, List.length_append, List.length_singleton, ← hlength, hq, List.length_cons]
      obtain ⟨hresidue, hbytes⟩ := ih (h.roll hlength hwindow b) hlength'
      refine ⟨hresidue, ?_⟩
      rw [List.foldl_cons, hbytes, hnext, hq, List.length_cons, List.cons_append, List.drop_succ_cons, List.append_assoc,
        List.singleton_append]

end Feed

/-- The fingerprint of the bytes after a reset. -/
def fingerprint (window : Nat) (bs : Bytes) : U64 := (bs.foldl (roll window) (0, List.replicate window 0)).1

theorem fingerprint_residue {window : Nat} (hwindow : 0 < window) (bs : Bytes) :
    toPoly (fingerprint window bs) = ofWords (lastBytes window bs) % toPoly irreduciblePoly ∧ (fingerprint window bs).toNat < 2 ^ 63 := by
  have hreset : Residue ((0 : U64), List.replicate window (0 : Byte)) := by
    unfold Residue
    rw [ofWords_replicate, toPoly_zero, EuclideanDomain.zero_mod]
  obtain ⟨hresidue, hbytes⟩ := hreset.foldl (List.length_replicate) hwindow bs
  refine ⟨?_, hresidue.lt⟩
  unfold Residue at hresidue
  rw [hbytes] at hresidue
  exact hresidue

/-- Nothing is left of what came before a reset. -/
theorem feed_reset {window : Nat} {rp : RabinPoly} (h : rp.Ready window) (bs : Bytes) :
    (feed (zeroRegionBuf rp) 0 bs).1 = fingerprint window bs := by
  have hready : (zeroRegionBuf rp).Ready window := ⟨h.1, h.2, h.3, h.4, h.5⟩
  have hfeed := feed_eq hready 0 bs
  have hqueue : Ring.queue (zeroRegionBuf rp).regionBuf (zeroRegionBuf rp).regionPos window = List.replicate window 0 :=
      Ring.queue_const 0 _ window
  rw [hqueue] at hfeed
  exact congrArg Prod.fst hfeed

/-- A reset, after other bytes were fed from some position in the buffer. -/
def resetAfter (rp : RabinPoly) (regionPos : Nat) (finger : U64) (earlier : Bytes) : RabinPoly :=
  zeroRegionBuf (feed { rp with regionPos := regionPos } finger earlier).2

/-- After a reset the fingerprint is the remainder of the last bytes, whatever was there before. -/
theorem rolling_fingerprint {bsize window minSize maxSize : Nat} (hwindow : 0 < window) {rctx : RabinCtx}
    (hused : rctx.Used bsize window minSize maxSize) :
    (∀ (regionPos : Nat) (finger : U64) (earlier bs : Bytes), regionPos < window →
      (feed (resetAfter rctx.rp regionPos finger earlier) 0 bs).1 = fingerprint window bs ∧
      toPoly (feed (resetAfter rctx.rp regionPos finger earlier) 0 bs).1 = ofWords (lastBytes window bs) % toPoly irreduciblePoly ∧
      (feed (resetAfter rctx.rp regionPos finger earlier) 0 bs).1.toNat < 2 ^ 63) ∧
    (∀ x y : U64, toPoly ((multiplyPoly x y).1 ++ (multiplyPoly x y).2) = toPoly x * toPoly y) ∧
    ∀ h l poly : U64, poly ≠ 0 → toPoly (getFingerprint h l poly) = toPoly (h ++ l) % toPoly poly := by
  refine ⟨fun regionPos finger earlier bs hpos => ?_, multiplyPoly_eq, fun h l poly hne => getFingerprint_eq hne h l⟩
  have hready := (hused.ready hwindow).rp_ready
  have hmoved : ({ rctx.rp with regionPos := regionPos } : RabinPoly).Ready window := ⟨hready.1, hready.2, hready.3, hready.4, hpos⟩
  have hfed : (feed (resetAfter rctx.rp regionPos finger earlier) 0 bs).1 = fingerprint window bs :=
    feed_reset (feed_ready hmoved finger earlier) bs
  rw [hfed]
  exact ⟨rfl, fingerprint_residue hwindow bs⟩

/-- A window of 16 bytes. -/
theorem rolling_fingerprint_sixteen : ∃ rctx, initRabinCtx blankRabinCtx 32 16 0 100 = .ok rctx ∧
    toPoly (feed (resetAfter rctx.rp 3 0 [7]) 0 [1, 2]).1 = ofWords (List.replicate 14 (0 : Byte) ++ [1, 2]) % toPoly irreduciblePoly := by
  refine ⟨_, rfl, ?_⟩
  obtain ⟨hresidue, -, -⟩ := rolling_fingerprint (show 0 < 16 by decide)
    (.init (show initRabinCtx blankRabinCtx 32 16 0 100 = .ok _ from rfl))
  exact (hresidue 3 0 [7] [1, 2] (by decide)).2.1

end BeagleCache.RabinResidue

import Mathlib.Tactic
import Mathlib.Algebra.CharP.Two
import Mathlib.Algebra.Field.ZMod
import Mathlib.Algebra.Polynomial.FieldDivision

/-! Words as polynomials over GF(2): bit `i` is the coefficient of `X ^ i`. What a shift or an addition of words is for the polynomials, and
when a word is the remainder of a polynomial. -/

namespace BinaryPolynomial

open Polynomial

variable {v w : ℕ}

/-- The polynomial of a word. -/
noncomputable def toPoly (x : BitVec w) : (ZMod 2)[X] := ∑ i ∈ Finset.range w, if x.getLsbD i = true then X ^ i else 0

@[simp] theorem coeff_toPoly (x : BitVec w) (i : ℕ) : (toPoly x).coeff i = if x.getLsbD i = true then 1 else 0 := by
  have hterm : ∀ j, (if x.getLsbD j = true then (X : (ZMod 2)[X]) ^ j else 0).coeff i =
      if i = j then (if x.getLsbD i = true then 1 else 0) else 0 := by
    intro j
    by_cases hij : i = j
    · subst hij
      split <;> simp
    · split <;> simp [coeff_X_pow, hij]
  unfold toPoly
  rw [finsetSum_coeff, Finset.sum_congr rfl fun j _ => hterm j, Finset.sum_ite_eq]
  by_cases hi : i < w
  · rw [if_pos (Finset.mem_range.mpr hi)]
  · rw [if_neg (mt Finset.mem_range.mp hi), BitVec.getLsbD_of_ge x i (Nat.not_lt.mp hi)]
    rfl

@[simp] theorem toPoly_zero : toPoly (0 : BitVec w) = 0 := by
  ext i
  simp

theorem toPoly_one (hw : 0 < w) : toPoly (1#w) = 1 := by
  ext i
  rw [coeff_toPoly, coeff_one, BitVec.getLsbD_one]
  simp [hw]

theorem toPoly_ne_zero {x : BitVec w} (h : x ≠ 0) : toPoly x ≠ 0 := by
  intro hzero
  apply h
  apply BitVec.eq_of_getLsbD_eq
  intro i _
  have hcoeff := congrArg (fun p => coeff p i) hzero
  simpa using hcoeff

/-- Words are added without carry. -/
@[simp] theorem toPoly_xor (x y : BitVec w) : toPoly (x ^^^ y) = toPoly x + toPoly y := by
  ext i
  rw [coeff_add, coeff_toPoly, coeff_toPoly, coeff_toPoly, BitVec.getLsbD_xor]
  cases x.getLsbD i <;> cases y.getLsbD i <;> simp [CharTwo.add_self_eq_zero]

/-- Bits that are set in one of two words only. -/
theorem toPoly_or {x y : BitVec w} (h : x &&& y = 0) : toPoly (x ||| y) = toPoly x + toPoly y := by
  rw [← toPoly_xor]
  congr 1
  apply BitVec.eq_of_getLsbD_eq
  intro i _
  have hbit := congrArg (fun z => BitVec.getLsbD z i) h
  simp only [BitVec.getLsbD_and] at hbit
  rw [BitVec.getLsbD_or, BitVec.getLsbD_xor]
  cases hx : x.getLsbD i <;> cases hy : y.getLsbD i <;> simp_all

theorem toPoly_append (x : BitVec v) (y : BitVec w) : toPoly (x ++ y) = X ^ w * toPoly x + toPoly y := by
  ext i
  rw [coeff_add, coeff_X_pow_mul', coeff_toPoly, coeff_toPoly, coeff_toPoly, BitVec.getLsbD_append]
  by_cases hi : i < w
  · rw [if_pos hi, if_neg (Nat.not_le.mpr hi), zero_add]
  · rw [if_neg hi, if_pos (Nat.not_lt.mp hi), BitVec.getLsbD_of_ge y i (Nat.not_lt.mp hi)]
    simp

theorem toPoly_setWidth (x : BitVec v) (h : v ≤ w) : toPoly (x.setWidth w) = toPoly x := by
  ext i
  rw [coeff_toPoly, coeff_toPoly, BitVec.getLsbD_setWidth]
  by_cases hi : i < w
  · simp [hi]
  · simp [BitVec.getLsbD_of_ge x i (h.trans (Nat.not_lt.mp hi))]

/-- What is shifted out of a word is in the word above it. -/
theorem toPoly_shift (x : BitVec w) {n m : ℕ} (hnm : n + m = w) : X ^ n * toPoly x = X ^ w * toPoly (x >>> m) + toPoly (x <<< n) := by
  ext i
  rw [coeff_add, coeff_X_pow_mul', coeff_X_pow_mul', coeff_toPoly, coeff_toPoly, coeff_toPoly, BitVec.getLsbD_ushiftRight,
    BitVec.getLsbD_shiftLeft]
  by_cases hin : n ≤ i
  · by_cases hiw : i < w
    · simp [hin, hiw]
    · have hsum : m + (i - w) = i - n := by omega
      simp [hin, hiw, hsum]
  · have hiw : i < w := by omega
    simp [hin, hiw, Nat.not_le.mp hin]

/-- Nothing is shifted out. -/
theorem toPoly_shiftLeft {x : BitVec w} {n m : ℕ} (hnm : n + m = w) (hx : x >>> m = 0) : toPoly (x <<< n) = X ^ n * toPoly x := by
  rw [toPoly_shift x hnm, hx, toPoly_zero, mul_zero, zero_add]

/-! ## Degrees and remainders -/

theorem degree_toPoly_lt {x : BitVec w} {k : ℕ} : (toPoly x).degree < k ↔ ∀ i, k ≤ i → x.getLsbD i = false := by
  rw [degree_lt_iff_coeff_zero]
  simp

theorem degree_toPoly {x : BitVec w} {k : ℕ} (hk : x.getLsbD k = true) (hx : ∀ i, k < i → x.getLsbD i = false) : (toPoly x).degree = k := by
  apply le_antisymm
  · rw [degree_le_iff_coeff_zero]
    intro i hi
    rw [coeff_toPoly, hx i (by exact_mod_cast hi)]
    rfl
  · apply le_degree_of_ne_zero
    rw [coeff_toPoly, if_pos hk]
    exact one_ne_zero

theorem toNat_lt_of_degree {x : BitVec w} {k : ℕ} (h : (toPoly x).degree < k) : x.toNat < 2 ^ k := by
  by_contra hge
  obtain ⟨i, hi, hbit⟩ := Nat.exists_ge_and_testBit_of_ge_two_pow (Nat.not_lt.mp hge)
  have hfalse : x.toNat.testBit i = false := degree_toPoly_lt.mp h i hi
  cases hbit.symm.trans hfalse

theorem two_eq_zero : (2 : (ZMod 2)[X]) = 0 := CharTwo.two_eq_zero

/-- A polynomial of lower degree that differs by a multiple is the remainder. -/
theorem eq_mod {f p r q : (ZMod 2)[X]} (hdegree : r.degree < p.degree) (h : f = r + q * p) : r = f % p := by
  have hp : p ≠ 0 := by
    rintro rfl
    rw [degree_zero] at hdegree
    exact not_lt_bot hdegree
  have hdvd : p ∣ r - f := ⟨-q, by rw [h]; ring⟩
  calc r = r % p := ((mod_eq_self_iff hp).mpr hdegree).symm
    _ = f % p := mod_eq_of_dvd_sub hdvd

theorem mod_mod (f p : (ZMod 2)[X]) : f % p % p = f % p := by
  have hdivide := EuclideanDomain.div_add_mod f p
  exact mod_eq_of_dvd_sub ⟨-(f / p), by linear_combination hdivide⟩

/-- A factor may be reduced. -/
theorem mul_mod_right (f g p : (ZMod 2)[X]) : f * (g % p) % p = f * g % p := by
  rw [mul_mod, mod_mod, ← mul_mod]

/-! ## Several words -/

/-- The polynomial of words that follow each other, the first one highest. -/
noncomputable def ofWords (ws : List (BitVec w)) : (ZMod 2)[X] := ws.foldl (fun f x => X ^ w * f + toPoly x) 0

@[simp] theorem ofWords_nil : ofWords ([] : List (BitVec w)) = 0 := rfl

theorem ofWords_concat (ws : List (BitVec w)) (x : BitVec w) : ofWords (ws ++ [x]) = X ^ w * ofWords ws + toPoly x := by
  unfold ofWords
  rw [List.foldl_append]
  rfl

theorem ofWords_cons (x : BitVec w) (ws : List (BitVec w)) : ofWords (x :: ws) = X ^ (w * ws.length) * toPoly x + ofWords ws := by
  induction ws using List.reverseRecOn with
  | nil =>
      have hone := ofWords_concat [] x
      rw [List.nil_append] at hone
      rw [hone, ofWords_nil, List.length_nil]
      ring
  | append_singleton ws y ih =>
      rw [← List.cons_append, ofWords_concat, ofWords_concat, ih, List.length_append, List.length_singleton]
      ring

theorem ofWords_replicate (n : ℕ) : ofWords (List.replicate n (0 : BitVec w)) = 0 := by
  induction n with
  | zero => rfl
  | succ n ih => rw [List.replicate_succ, ofWords_cons, ih, toPoly_zero, mul_zero, add_zero]

end BinaryPolynomial

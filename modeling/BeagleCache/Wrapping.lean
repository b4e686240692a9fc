import Mathlib.Tactic

/-! Counters of `w` bits that are compared without regard to their overflow. A counter has the last bits of an unbounded
count, and the comparison is the one of the counts exactly as long as these lie in the same epoch, the counts with the same
quotient by `2 ^ w`. -/

namespace Wrapping

variable {w a b l t : Nat}

/-- The counts lie between the same two overflows. -/
def SameEpoch (w a b : Nat) : Prop := a / 2 ^ w = b / 2 ^ w

instance (w a b : Nat) : Decidable (SameEpoch w a b) := inferInstanceAs (Decidable (_ = _))

theorem SameEpoch.symm (h : SameEpoch w a b) : SameEpoch w b a := Eq.symm h

theorem SameEpoch.trans {c : Nat} (h : SameEpoch w a b) (h' : SameEpoch w b c) : SameEpoch w a c := Eq.trans h h'

/-- A count between two counts of an epoch lies in it. -/
theorem SameEpoch.between (h : SameEpoch w l t) (hl : l ≤ a) (ht : a ≤ t) : SameEpoch w l a := by
  have h1 : l / 2 ^ w ≤ a / 2 ^ w := Nat.div_le_div_right hl
  have h2 : a / 2 ^ w ≤ t / 2 ^ w := Nat.div_le_div_right ht
  have h3 : l / 2 ^ w = t / 2 ^ w := h
  show l / 2 ^ w = a / 2 ^ w
  omega

/-- A counter is 0 after whole epochs. -/
theorem ofNat_eq_zero : BitVec.ofNat w a = 0 ↔ 2 ^ w ∣ a := by
  rw [Nat.dvd_iff_mod_eq_zero]
  constructor
  · intro h
    simpa using congrArg BitVec.toNat h
  · intro h
    apply BitVec.eq_of_toNat_eq
    simpa using h

theorem ofNat_succ_sub_one (w a : Nat) : BitVec.ofNat w (a + 1) - 1 = BitVec.ofNat w a := by
  rw [BitVec.ofNat_add]
  exact BitVec.add_sub_cancel _ _

theorem ofNat_le_ofNat : BitVec.ofNat w a ≤ BitVec.ofNat w b ↔ a % 2 ^ w ≤ b % 2 ^ w := by
  rw [BitVec.le_def, BitVec.toNat_ofNat, BitVec.toNat_ofNat]

/-- Inside an epoch the counters compare like the counts. -/
theorem SameEpoch.le_iff (h : SameEpoch w a b) : BitVec.ofNat w a ≤ BitVec.ofNat w b ↔ a ≤ b := by
  have ha := Nat.div_add_mod a (2 ^ w)
  have hb := Nat.div_add_mod b (2 ^ w)
  rw [ofNat_le_ofNat]
  rw [show a / 2 ^ w = b / 2 ^ w from h] at ha
  omega

/-- Counts that differ by less than an epoch compare as they should only inside one. -/
theorem sameEpoch_of_le (hle : a ≤ b) (hnear : b - a < 2 ^ w) (h : BitVec.ofNat w a ≤ BitVec.ofNat w b) : SameEpoch w a b := by
  rw [ofNat_le_ofNat] at h
  have hdiv : a / 2 ^ w ≤ b / 2 ^ w := Nat.div_le_div_right hle
  rcases Nat.eq_or_lt_of_le hdiv with heq | hlt
  · exact heq
  · have ha := Nat.div_add_mod a (2 ^ w)
    have hb := Nat.div_add_mod b (2 ^ w)
    have hstep : 2 ^ w * (a / 2 ^ w) + 2 ^ w ≤ 2 ^ w * (b / 2 ^ w) := by
      rw [← Nat.mul_succ]
      exact Nat.mul_le_mul_left _ hlt
    omega

/-- A count whose counter is zero is the first of its epoch. -/
theorem SameEpoch.ne_zero (h : SameEpoch w a b) (hlt : a < b) : BitVec.ofNat w b ≠ 0 := by
  intro hzero
  have hmod : b % 2 ^ w = 0 := by simpa using congrArg BitVec.toNat hzero
  have hle := h.le_iff
  rw [ofNat_le_ofNat, hmod] at hle
  have ha := Nat.div_add_mod a (2 ^ w)
  have hb := Nat.div_add_mod b (2 ^ w)
  rw [show a / 2 ^ w = b / 2 ^ w from h] at ha
  omega

/-- The difference of two counters is the counter of the difference. -/
theorem ofNat_sub (hle : a ≤ b) : BitVec.ofNat w (b - a) = BitVec.ofNat w b - BitVec.ofNat w a := by
  have hadd : BitVec.ofNat w b = BitVec.ofNat w (b - a) + BitVec.ofNat w a := by
    rw [← BitVec.ofNat_add, Nat.sub_add_cancel hle]
  rw [hadd, BitVec.add_sub_cancel]

end Wrapping

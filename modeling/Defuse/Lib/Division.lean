import Defuse.Lib.ShiftRegister
import Mathlib

/-! A shift register divides: what it holds is the remainder of the message by its generator.
Coefficients are bits, and the lowest bit of a register stands for the highest power. -/

namespace CSem

open Polynomial

variable {w : ℕ}

def bitCoeff (b : Bool) : ZMod 2 := if b then 1 else 0

noncomputable section

/-- The register as a polynomial of degree less than its width. -/
def regPoly (c : BitVec w) : (ZMod 2)[X] :=
  ∑ k ∈ Finset.range w, monomial k (bitCoeff (c.getLsbD (w - 1 - k)))

/-- The polynomial that a register with feedback `poly` divides by. -/
def generator (poly : BitVec w) : (ZMod 2)[X] := X ^ w + regPoly poly

/-- The message as a polynomial, its first bit the highest power. -/
def bitsPoly : List Bool → (ZMod 2)[X]
  | [] => 0
  | b :: bits => C (bitCoeff b) * X ^ bits.length + bitsPoly bits

theorem coeff_regPoly (c : BitVec w) (k : ℕ) :
    (regPoly c).coeff k = if k < w then bitCoeff (c.getLsbD (w - 1 - k)) else 0 := by
  simp only [regPoly, finsetSum_coeff, coeff_monomial, Finset.sum_ite_eq', Finset.mem_range]

theorem degree_regPoly_lt (c : BitVec w) : (regPoly c).degree < w := by
  rw [degree_lt_iff_coeff_zero]
  intro k hk
  rw [coeff_regPoly, if_neg (not_lt.mpr hk)]

theorem generator_monic (poly : BitVec w) : (generator poly).Monic :=
  monic_X_pow_add (degree_regPoly_lt poly)

theorem degree_generator (poly : BitVec w) : (generator poly).degree = w := by
  rw [generator, degree_add_eq_left_of_degree_lt, degree_X_pow]
  rw [degree_X_pow]
  exact degree_regPoly_lt poly

theorem regPoly_xor (a b : BitVec w) : regPoly (a ^^^ b) = regPoly a + regPoly b := by
  ext k
  rw [coeff_add, coeff_regPoly, coeff_regPoly, coeff_regPoly, BitVec.getLsbD_xor]
  split_ifs
  · cases a.getLsbD (w - 1 - k) <;> cases b.getLsbD (w - 1 - k) <;> decide
  · simp

/-- A step of the register: the power that falls out, and the others moved up by one. -/
theorem regPoly_mul_X (hw : 0 < w) (c : BitVec w) :
    regPoly c * X = C (bitCoeff (c.getLsbD 0)) * X ^ w + regPoly (c >>> 1) := by
  ext k
  rw [coeff_add, coeff_C_mul, coeff_X_pow, coeff_regPoly, BitVec.getLsbD_ushiftRight]
  cases k with
  | zero =>
    have htop : c.getLsbD (1 + (w - 1 - 0)) = false := BitVec.getLsbD_of_ge c _ (by omega)
    rw [coeff_mul_X_zero, htop, if_neg (by omega), if_pos hw, mul_zero, zero_add]
    rfl
  | succ k =>
    rw [coeff_mul_X, coeff_regPoly]
    rcases Nat.lt_trichotomy (k + 1) w with hk | hk | hk
    · rw [if_pos (by omega), if_neg (by omega), if_pos hk, mul_zero, zero_add,
        show 1 + (w - 1 - (k + 1)) = w - 1 - k by omega]
    · rw [if_pos (by omega), if_pos hk, if_neg (by omega), mul_one, add_zero,
        show w - 1 - k = 0 by omega]
    · rw [if_neg (by omega), if_neg (by omega), if_neg (by omega), mul_zero, zero_add]

theorem generator_dvd_lfsr (hw : 0 < w) (poly c : BitVec w) :
    generator poly ∣ regPoly c * X - regPoly (lfsr poly c) := by
  rw [regPoly_mul_X hw, lfsr]
  cases c.getLsbD 0
  · exact ⟨0, by simp [bitCoeff]⟩
  · refine ⟨1, ?_⟩
    have htwo : regPoly poly + regPoly poly = 0 := CharTwo.add_self_eq_zero _
    simp only [if_true, regPoly_xor, bitCoeff, C_1, generator]
    linear_combination - htwo

theorem regPoly_bit (hw : 0 < w) (b : Bool) :
    regPoly ((BitVec.ofBool b).setWidth w) = C (bitCoeff b) * X ^ (w - 1) := by
  ext k
  rw [coeff_regPoly, coeff_C_mul, coeff_X_pow, BitVec.getLsbD_setWidth, BitVec.getLsbD_ofBool]
  by_cases hk : k = w - 1
  · rw [if_pos (by omega), if_pos hk, show w - 1 - k = 0 by omega]
    simp [hw]
  · rw [if_neg hk, mul_zero]
    split_ifs
    · rw [decide_eq_false (show ¬ w - 1 - k = 0 by omega)]
      simp [bitCoeff]
    · rfl

theorem generator_dvd_feed (hw : 0 < w) (poly c : BitVec w) (bits : List Bool) :
    generator poly ∣
      regPoly c * X ^ bits.length + bitsPoly bits * X ^ w - regPoly (feed poly c bits) := by
  induction bits generalizing c with
  | nil => simp [bitsPoly]
  | cons b bits ih =>
    have hstep := generator_dvd_lfsr hw poly (c ^^^ (BitVec.ofBool b).setWidth w)
    have hrest := ih (lfsr poly (c ^^^ (BitVec.ofBool b).setWidth w))
    have hpow : (X : (ZMod 2)[X]) ^ (w - 1) * X = X ^ w := by
      rw [← pow_succ, Nat.sub_add_cancel hw]
    rw [regPoly_xor, regPoly_bit hw] at hstep
    rw [feed_cons]
    convert dvd_add (hstep.mul_left (X ^ bits.length)) hrest using 1
    rw [bitsPoly, List.length_cons]
    linear_combination (- C (bitCoeff b) * X ^ bits.length) * hpow

theorem regPoly_feed (hw : 0 < w) (poly c : BitVec w) (bits : List Bool) :
    regPoly (feed poly c bits) =
      (regPoly c * X ^ bits.length + bitsPoly bits * X ^ w) %ₘ generator poly := by
  have hself : regPoly (feed poly c bits) %ₘ generator poly = regPoly (feed poly c bits) := by
    rw [modByMonic_eq_self_iff (generator_monic poly), degree_generator]
    exact degree_regPoly_lt _
  rw [modByMonic_eq_of_dvd_sub (generator_monic poly) (generator_dvd_feed hw poly c bits), hself]

end

end CSem

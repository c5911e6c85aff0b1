import Motion.Proofs.Number.RoundTrip
import Motion.Proofs.Number.Text

/-!
Neutral operands. Adding a number to zero and multiplying one by one rounds nothing, so that the number
stays as it is; a sum may lose no more than the sign of a zero.
-/

set_option autoImplicit false
set_option relaxedAutoImplicit false

namespace Motion

namespace Binary64

theorem bias_lt : 1023 < 2047 := by
  decide

theorem fractionCount_pos : 0 < fractionCount := by
  decide

/-- One as a binary64 number. -/
def one : Binary64 :=
  .finite false ⟨1023, bias_lt⟩ ⟨0, fractionCount_pos⟩

theorem ofInt?_zero : ofInt? 0 = some (zero false) := by
  decide +kernel

theorem ofInt?_one : ofInt? 1 = some one := by
  decide +kernel

theorem toRat_one : one.toRat = 1 := by
  decide +kernel

theorem ofRatio_neg (negative : Bool) (q : ℚ) : ofRatio negative (-q) = ofRatio negative q := by
  rw [ofRatio, ofRatio, Rat.num_neg_eq_neg_num, Int.natAbs_neg, Rat.den_neg_eq_den]

variable {x : Binary64}

theorem add_zero_left (hnan : x.isNaN = false) (hzero : x.isFinite = true → x.toRat ≠ 0) :
    (zero false).add x = x := by
  cases x with
  | nan => cases hnan
  | infinite negative => rfl
  | finite negative exponent fraction =>
    have hvalue := hzero rfl
    have hsum : (zero false).toRat + (finite negative exponent fraction).toRat =
        (finite negative exponent fraction).toRat := by
      rw [toRat_zero, zero_add]
    rw [zero, add, ← zero]
    rw [hsum, if_neg hvalue, ofRat_toRat rfl hvalue]

theorem mul_one_left (hnan : x.isNaN = false) : one.mul x = x := by
  cases x with
  | nan => cases hnan
  | infinite negative =>
    have hone : one.toRat ≠ 0 := by
      rw [toRat_one]
      exact one_ne_zero
    rw [one, mul, ← one]
    rw [if_neg hone]
    simp
  | finite negative exponent fraction =>
    rw [one, mul, ← one]
    rw [toRat_one, one_mul, toRat_eq_signed, toRat_abs_finite]
    cases negative with
    | false =>
      rw [isNegative, if_neg Bool.false_ne_true]
      exact ofRatio_magnitude false exponent fraction
    | true =>
      rw [isNegative, if_pos rfl, ofRatio_neg]
      exact ofRatio_magnitude true exponent fraction

end Binary64

namespace Number

variable {n : Number}

/-- A number that is not zero is its own sum with zero. -/
theorem add_zero_left (hnan : n.isNaN = false) (hzero : n.same 0 = false) :
    (0 : Number).add n = some n := by
  cases n with
  | int i => exact congrArg (fun j ↦ some (Number.int j)) (Int.zero_add i)
  | float x =>
    have hvalue (hfinite : x.isFinite = true) : x.toRat ≠ 0 := by
      intro hrat
      have hx : (Number.float x).toRat? = some 0 := by rw [toRat?, if_pos hfinite, hrat]
      have hy : (0 : Number).toRat? = some 0 := rfl
      rw [same, compare?_of_toRat? hx hy, compareRat_self] at hzero
      cases hzero
    have hadd : (0 : Number).add (.float x) = some (.float ((Binary64.zero false).add x)) := by
      rw [add, arith]
      · rw [show (0 : Number).toBinary64? = some (Binary64.zero false) from Binary64.ofInt?_zero]
        rfl
      · intro _ j _ hfloat
        cases hfloat
    rw [hadd, Binary64.add_zero_left hnan hvalue]

/-- A number is its own product with one. -/
theorem mul_one_left (hnan : n.isNaN = false) : (1 : Number).mul n = some n := by
  cases n with
  | int i => exact congrArg (fun j ↦ some (Number.int j)) (Int.one_mul i)
  | float x =>
    have hmul : (1 : Number).mul (.float x) = some (.float (Binary64.one.mul x)) := by
      rw [mul, arith]
      · rw [show (1 : Number).toBinary64? = some Binary64.one from Binary64.ofInt?_one]
        rfl
      · intro _ j _ hfloat
        cases hfloat
    rw [hmul, Binary64.mul_one_left hnan]

end Number

end Motion

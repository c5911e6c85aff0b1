import Motion.Number.Reading
import Mathlib.Data.Rat.Lemmas
import Mathlib.Algebra.Order.Ring.Rat
import Mathlib.Tactic.NormNum
import Mathlib.Algebra.Order.Field.Basic

/-!
Rounding changes nothing where nothing has to be rounded. A magnitude that some binary64 number has
is rounded to that number (`Binary64.ofUnits_units`), and every integer of at most `2 ^ 53` is such
a magnitude.
-/

set_option autoImplicit false
set_option relaxedAutoImplicit false

namespace Motion

theorem roundHalfEven_mul {d : ℕ} (hd : 0 < d) (n : ℕ) : roundHalfEven (n * d) d = n := by
  have hmod : 2 * (n * d % d) < d := by
    rw [Nat.mul_mod_left]
    exact hd
  rw [roundHalfEven, if_pos hmod, Nat.mul_div_cancel n hd]

/-- How a quotient is rounded does not depend on how it is expanded. -/
theorem roundHalfEven_mul_mul {k : ℕ} (hk : 0 < k) (n d : ℕ) :
    roundHalfEven (n * k) (d * k) = roundHalfEven n d := by
  have hless : 2 * (n % d * k) < d * k ↔ 2 * (n % d) < d := by
    rw [← Nat.mul_assoc, Nat.mul_lt_mul_right hk]
  have hgreater : d * k < 2 * (n % d * k) ↔ d < 2 * (n % d) := by
    rw [← Nat.mul_assoc, Nat.mul_lt_mul_right hk]
  simp only [roundHalfEven, Nat.mul_mod_mul_right, Nat.mul_div_mul_right _ _ hk, hless, hgreater]

namespace Binary64

theorem ofUnits_mul_mul (negative : Bool) {k : ℕ} (hk : 0 < k) (n d : ℕ) :
    ofUnits negative (n * k) (d * k) = ofUnits negative n d := by
  have hround (s : ℕ) : roundHalfEven (n * k) (d * k * Nat.pow 2 s) =
      roundHalfEven n (d * Nat.pow 2 s) := by
    rw [Nat.mul_right_comm, roundHalfEven_mul_mul hk]
  simp only [ofUnits, Nat.mul_div_mul_right _ _ hk, hround]

/-- A significand between `2 ^ 52` and `2 ^ 53`, shifted by some binary digits, has that many digits
more than 53. -/
theorem log2_shifted {m : ℕ} (hlow : fractionCount ≤ m) (hhigh : m < 2 * fractionCount) (k : ℕ) :
    Nat.log2 (m * 2 ^ k) - 52 = k := by
  have hbounds : 2 ^ (52 + k) ≤ m * 2 ^ k ∧ m * 2 ^ k < 2 ^ (52 + k + 1) := by
    rw [pow_succ', pow_add, ← Nat.mul_assoc]
    exact ⟨Nat.mul_le_mul_right _ hlow, Nat.mul_lt_mul_of_pos_right hhigh (Nat.two_pow_pos k)⟩
  have hpos : m * 2 ^ k ≠ 0 := by
    have := Nat.two_pow_pos (52 + k)
    omega
  rw [(Nat.log2_eq_iff hpos).mpr hbounds]
  omega

/-- A shifted significand that fits is rounded to the number with the fields of the word it makes.
-/
theorem ofUnits_shifted (negative : Bool) {m k : ℕ} (hshift : Nat.log2 (m * 2 ^ k) - 52 = k)
    {exponent : Fin 2047} {fraction : Fin fractionCount}
    (hfields : m + fractionCount * k = fraction.val + fractionCount * exponent.val) :
    ofUnits negative (m * 2 ^ k) 1 = .finite negative exponent fraction := by
  have hword : (Nat.log2 (m * 2 ^ k / 1) - 52) * fractionCount +
      roundHalfEven (m * 2 ^ k) (1 * Nat.pow 2 (Nat.log2 (m * 2 ^ k / 1) - 52)) =
        fraction.val + fractionCount * exponent.val := by
    have hround : roundHalfEven (m * 2 ^ k) (1 * Nat.pow 2 k) = m := by
      rw [Nat.one_mul]
      exact roundHalfEven_mul (Nat.two_pow_pos k) m
    rw [Nat.div_one, hshift, hround, Nat.add_comm, Nat.mul_comm k]
    exact hfields
  have hdiv := Nat.add_mul_div_left fraction.val exponent.val fraction.pos
  rw [Nat.div_eq_of_lt fraction.isLt, Nat.zero_add, ← hword] at hdiv
  have hmod := Nat.add_mul_mod_self_left fraction.val fractionCount exponent.val
  rw [Nat.mod_eq_of_lt fraction.isLt, ← hword] at hmod
  exact (dif_pos (lt_of_eq_of_lt hdiv exponent.isLt)).trans
    (congrArg₂ (finite negative) (Fin.ext hdiv) (Fin.ext hmod))

/-- The units of a finite number are rounded to that number. -/
theorem ofUnits_units (negative : Bool) (exponent : Fin 2047) (fraction : Fin fractionCount) :
    ofUnits negative (units exponent fraction) 1 = .finite negative exponent fraction := by
  by_cases hzero : exponent.val = 0
  · have hshift : Nat.log2 (fraction.val * 2 ^ 0) - 52 = 0 := by
      rw [pow_zero, Nat.mul_one]
      by_cases hnone : fraction.val = 0
      · rw [hnone]
        rfl
      · have hlog := (Nat.log2_lt hnone).mpr (show fraction.val < 2 ^ 52 from fraction.isLt)
        omega
    have hround := ofUnits_shifted negative hshift (show _ = fraction.val + fractionCount *
      exponent.val by rw [hzero])
    rw [pow_zero, Nat.mul_one] at hround
    rw [units, if_pos hzero, hround]
  · obtain ⟨k, hk⟩ := Nat.exists_eq_succ_of_ne_zero hzero
    have hsmall : fractionCount + fraction.val < 2 * fractionCount := by
      rw [Nat.two_mul]
      exact Nat.add_lt_add_left fraction.isLt _
    rw [units, if_neg hzero, hk]
    refine ofUnits_shifted negative (log2_shifted (Nat.le_add_right _ _) hsmall k) ?_
    rw [hk, Nat.mul_succ, Nat.add_comm fractionCount, Nat.add_assoc,
      Nat.add_comm (fractionCount * k)]

theorem exists_units_shifted {m k : ℕ} (hlow : fractionCount ≤ m) (hhigh : m < 2 * fractionCount)
    (hk : k + 1 < 2047) : ∃ exponent fraction, units exponent fraction = m * 2 ^ k := by
  have hfraction : m - fractionCount < fractionCount := by
    rw [Nat.two_mul] at hhigh
    exact Nat.sub_lt_left_of_lt_add hlow hhigh
  refine ⟨⟨k + 1, hk⟩, ⟨m - fractionCount, hfraction⟩, ?_⟩
  rw [units, if_neg (Nat.succ_ne_zero k)]
  exact congrArg (· * 2 ^ k) (Nat.add_sub_cancel' hlow)

/-- A natural number of at most `2 ^ 53`, shifted far enough, is the magnitude of a finite number.
-/
theorem exists_units_eq {n k unit : ℕ} (hunit : unit = Nat.pow 2 k) (h : n ≤ 2 ^ 53)
    (hlow : 52 ≤ k) (hhigh : k < 2045) :
    ∃ exponent fraction, units exponent fraction = n * unit := by
  rw [hunit, Nat.pow_eq]
  by_cases hzero : n = 0
  · refine ⟨0, 0, ?_⟩
    rw [hzero, Nat.zero_mul]
    rfl
  · by_cases htop : n = 2 ^ 53
    · obtain ⟨exponent, fraction, hunits⟩ := exists_units_shifted (k := k + 1)
        (le_refl fractionCount) (by decide) (by omega)
      refine ⟨exponent, fraction, ?_⟩
      rw [hunits, htop, show fractionCount = 2 ^ 52 from rfl, ← pow_add, ← pow_add]
      congr 1
      omega
    · have hlog : Nat.log2 n < 53 := (Nat.log2_lt hzero).mpr (lt_of_le_of_ne h htop)
      have hleast : fractionCount ≤ n * 2 ^ (52 - Nat.log2 n) := by
        calc fractionCount = 2 ^ Nat.log2 n * 2 ^ (52 - Nat.log2 n) := by
              rw [← pow_add, Nat.add_sub_cancel' (Nat.le_of_lt_succ hlog)]
              rfl
          _ ≤ n * 2 ^ (52 - Nat.log2 n) := Nat.mul_le_mul_right _ (Nat.log2_self_le hzero)
      have hmost : n * 2 ^ (52 - Nat.log2 n) < 2 * fractionCount := by
        calc n * 2 ^ (52 - Nat.log2 n) < 2 ^ (Nat.log2 n + 1) * 2 ^ (52 - Nat.log2 n) :=
              Nat.mul_lt_mul_of_pos_right Nat.lt_log2_self (Nat.two_pow_pos _)
          _ = 2 * fractionCount := by
              rw [← pow_add, show Nat.log2 n + 1 + (52 - Nat.log2 n) = 53 by omega]
              rfl
      obtain ⟨exponent, fraction, hunits⟩ :=
        exists_units_shifted (k := k - 52 + Nat.log2 n) hleast hmost (by omega)
      refine ⟨exponent, fraction, ?_⟩
      rw [hunits, Nat.mul_assoc, ← pow_add]
      congr 2
      omega

theorem unitsPerOne_eq : unitsPerOne = Nat.pow 2 1074 := by
  unfold unitsPerOne
  rfl

theorem unitsPerOne_pos : 0 < unitsPerOne := by
  have hpower {n k : ℕ} (h : n = Nat.pow 2 k) : 0 < n := h ▸ Nat.two_pow_pos k
  exact hpower unitsPerOne_eq

/-- The magnitude of a finite number is rounded to that number. -/
theorem ofRatio_magnitude (negative : Bool) (exponent : Fin 2047) (fraction : Fin fractionCount) :
    ofRatio negative (mkRat (units exponent fraction) unitsPerOne) =
      finite negative exponent fraction := by
  generalize hq : mkRat (units exponent fraction) unitsPerOne = q
  have hcross : q.num * unitsPerOne = units exponent fraction * q.den := by
    rw [← Rat.mkRat_eq_iff q.den_nz unitsPerOne_pos.ne', Rat.mkRat_self, hq]
  have hnatural : q.num.natAbs * unitsPerOne = units exponent fraction * q.den := by
    have habs := congrArg Int.natAbs hcross
    rwa [Int.natAbs_mul, Int.natAbs_mul, Int.natAbs_natCast, Int.natAbs_natCast,
      Int.natAbs_natCast] at habs
  rw [ofRatio, hnatural, ← ofUnits_units negative exponent fraction,
    ← ofUnits_mul_mul negative q.den_pos _ 1, Nat.one_mul]

/-- Natural numbers of at most `2 ^ 53` are not rounded. -/
theorem toInt?_ofRatio (negative : Bool) {n : ℕ} (h : n ≤ 2 ^ 53) :
    (ofRatio negative n).toInt? = some (Numeral.signed negative n) := by
  obtain ⟨exponent, fraction, hunits⟩ : ∃ exponent fraction,
      units exponent fraction = n * unitsPerOne :=
    exists_units_eq unitsPerOne_eq h (by decide) (by decide)
  have hratio : ofRatio negative n = .finite negative exponent fraction := by
    rw [ofRatio, Rat.num_natCast, Int.natAbs_natCast, Rat.den_natCast, ← hunits]
    exact ofUnits_units negative exponent fraction
  have hone : (unitsPerOne : ℚ) ≠ 0 := by
    rw [Nat.cast_ne_zero]
    decide +kernel
  have hmagnitude : mkRat (units exponent fraction) unitsPerOne = (n : ℤ) := by
    rw [Rat.mkRat_eq_div, hunits, Int.cast_natCast, Int.cast_natCast, Nat.cast_mul,
      mul_div_cancel_right₀ _ hone]
  have hvalue : (finite negative exponent fraction).toRat = Numeral.signed negative n := by
    unfold toRat
    dsimp only
    rw [hmagnitude]
    cases negative with
    | false => rfl
    | true => exact (Rat.intCast_neg n).symm
  rw [hratio, toInt?, hvalue, Rat.num_intCast, Rat.den_intCast]
  rfl

end Binary64

namespace Decimal

theorem powerOfTen_eq (exponent : ℤ) : powerOfTen exponent = 10 ^ exponent := by
  cases exponent with
  | ofNat n =>
    rw [powerOfTen, Nat.pow_eq, Nat.cast_pow]
    exact (zpow_natCast 10 n).symm
  | negSucc n =>
    rw [powerOfTen, Nat.pow_eq, zpow_negSucc, Rat.mkRat_eq_div, Int.cast_one, Nat.cast_pow, one_div]
    rfl

/-- A decimal other than zero lies between the powers of ten around its point. -/
theorem toRat_bounds {x : Decimal} (h : x.coefficient ≠ 0) :
    (10 : ℚ) ^ (x.exponent + digitCount x.coefficient - 1) ≤ x.toRat ∧
      x.toRat < 10 ^ (x.exponent + digitCount x.coefficient) := by
  have hcount : 0 < digitCount x.coefficient := Nat.length_toDigits_pos
  have hpower : (0 : ℚ) < 10 ^ x.exponent := zpow_pos (by decide) x.exponent
  have hbelow : x.coefficient < 10 ^ digitCount x.coefficient :=
    (Nat.length_toDigits_le_iff (by decide) hcount).mp (le_refl _)
  have habove : 10 ^ (digitCount x.coefficient - 1) ≤ x.coefficient := by
    by_contra hless
    by_cases hone : digitCount x.coefficient = 1
    · rw [hone] at hless
      omega
    · have hshort := (Nat.length_toDigits_le_iff (n := x.coefficient) (show 1 < 10 by decide)
        (show 0 < digitCount x.coefficient - 1 by omega)).mpr (Nat.lt_of_not_le hless)
      have hlength : (Nat.toDigits 10 x.coefficient).length = digitCount x.coefficient := rfl
      omega
  rw [toRat, powerOfTen_eq]
  constructor
  · rw [add_sub_assoc, zpow_add₀ (by norm_num), mul_comm]
    refine mul_le_mul_of_nonneg_right ?_ hpower.le
    rw [← Nat.cast_pred hcount, zpow_natCast]
    exact_mod_cast habove
  · rw [zpow_add₀ (by norm_num), mul_comm, zpow_natCast]
    refine mul_lt_mul_of_pos_left ?_ hpower
    exact_mod_cast hbelow

end Decimal

end Motion

import Motion.Proofs.Number.RoundTrip

/-!
Whole numbers among the binary64 numbers. Rounding a whole number gives a whole number, so a binary64
number that is not whole is not written as one either: its text has a point or an exponent
(`Binary64.not_isWhole_of_normalize`). From `10 ^ 21` on this holds of whole numbers too, since the
shortest decimal does not lead below that bound.
-/

set_option autoImplicit false
set_option relaxedAutoImplicit false

namespace Motion

open Numeral

namespace Binary64

variable {x : Binary64}

/-- A number with a large exponent is whole. -/
theorem exists_toRat_eq_int {exponent : Fin 2047} (h : 1075 ≤ exponent.val) (negative : Bool)
    (fraction : Fin fractionCount) : ∃ i : ℤ, (finite negative exponent fraction).toRat = i := by
  have hunits {unit k : ℕ} (hunit : unit = Nat.pow 2 k) (hk : k < exponent.val) :
      ∃ n : ℕ, units exponent fraction = n * unit := by
    refine ⟨(fractionCount + fraction.val) * 2 ^ (exponent.val - 1 - k), ?_⟩
    rw [units, if_neg (by omega), hunit, Nat.pow_eq, Nat.pow_eq, Nat.mul_assoc, ← pow_add]
    congr 2
    omega
  obtain ⟨n, hn⟩ := hunits unitsPerOne_eq (Nat.lt_of_succ_le h)
  have hone : (unitsPerOne : ℚ) ≠ 0 := Nat.cast_ne_zero.mpr unitsPerOne_pos.ne'
  have hmagnitude : mkRat (units exponent fraction) unitsPerOne = (n : ℤ) := by
    rw [Rat.mkRat_eq_div, hn, Int.cast_natCast, Int.cast_natCast, Nat.cast_mul,
      mul_div_cancel_right₀ _ hone]
  refine ⟨if negative then -(n : ℤ) else n, ?_⟩
  rw [toRat_eq_signed, toRat_abs_finite, hmagnitude, isNegative]
  cases negative with
  | false => rfl
  | true => exact (Int.cast_neg _).symm

/-- A whole number is rounded to a whole number. -/
theorem exists_toRat_ofRatio (negative : Bool) (n : ℕ) :
    ∃ i : ℤ, (ofRatio negative n).toRat = i := by
  by_cases h : n ≤ 2 ^ 53
  · have hwhole := toInt?_ofRatio negative h
    cases hround : ofRatio negative n with
    | finite s exponent fraction =>
      rw [hround] at hwhole
      exact ⟨_, (toInt?_eq_some_iff rfl).mp hwhole⟩
    | infinite s => exact ⟨0, Int.cast_zero.symm⟩
    | nan => exact ⟨0, Int.cast_zero.symm⟩
  · have hlog {unit k : ℕ} (hunit : unit = Nat.pow 2 k) : 53 + k ≤ Nat.log2 (n * unit / 1) := by
      have hpower : 2 ^ (53 + k) ≤ n * unit := by
        rw [hunit, Nat.pow_eq, pow_add]
        exact Nat.mul_le_mul_right _ (not_le.mp h).le
      rw [Nat.div_one]
      exact (Nat.le_log2 ((Nat.two_pow_pos _).trans_le hpower).ne').mpr hpower
    have hshift := hlog unitsPerOne_eq
    rw [ofRatio, Rat.num_natCast, Int.natAbs_natCast, Rat.den_natCast]
    unfold ofUnits
    dsimp only
    split_ifs with hexponent
    · refine exists_toRat_eq_int ?_ negative _
      refine (Nat.le_div_iff_mul_le (Nat.zero_lt_succ _)).mpr (le_trans ?_ (Nat.le_add_right _ _))
      exact Nat.mul_le_mul_right _ (by omega)
    · exact ⟨0, Int.cast_zero.symm⟩

/-- The magnitude of a whole number is whole. -/
theorem exists_toRat_of_abs {i : ℤ} (h : x.abs.toRat = i) : ∃ j : ℤ, x.toRat = j := by
  rw [toRat_eq_signed, h]
  split_ifs
  · exact ⟨-i, (Int.cast_neg i).symm⟩
  · exact ⟨i, rfl⟩

/-- A number that is normalized to itself is no whole number below `10 ^ 21`. -/
theorem le_abs_of_normalize (hfinite : x.isFinite = true)
    (hnormal : (Number.float x).normalize = .float x) {j : ℤ} (hj : x.toRat = j) :
    (10 : ℚ) ^ (21 : ℤ) ≤ x.abs.toRat := by
  rw [Number.normalize, (toInt?_eq_some_iff hfinite).mpr hj] at hnormal
  dsimp only at hnormal
  split_ifs at hnormal with hsmall
  have hlarge : (10 : ℚ) ^ 21 ≤ j.natAbs := by
    exact_mod_cast Nat.not_lt.mp hsmall
  rw [toRat_abs, hj, ← Int.cast_abs, ← Nat.cast_natAbs]
  exact_mod_cast hlarge

theorem toRat_ne_zero_of_normalize (hfinite : x.isFinite = true)
    (hnormal : (Number.float x).normalize = .float x) : x.toRat ≠ 0 := by
  intro hzero
  have hlarge := le_abs_of_normalize hfinite hnormal (j := 0) (by rw [hzero, Int.cast_zero])
  rw [toRat_abs, hzero, abs_zero] at hlarge
  exact absurd hlarge (not_le.mpr (by positivity))

/-- A number that is normalized to itself is not written as a whole number. -/
theorem not_isWhole_of_normalize (hfinite : x.isFinite = true)
    (hnormal : (Number.float x).normalize = .float x) {l : Literal}
    (hshows : l.Shows .expression (Decimal.digitsOf x.shortest.coefficient)
      (x.shortest.exponent + (Decimal.digitsOf x.shortest.coefficient).length)) :
    ¬ l.IsWhole := by
  intro hwhole
  obtain ⟨hleast, hmost⟩ := hshows.isWhole hwhole
  have habs : x.abs.toRat ≠ 0 := by
    rw [toRat_abs]
    exact abs_ne_zero.mpr (toRat_ne_zero_of_normalize hfinite hnormal)
  -- The decimal is a natural number below `10 ^ 21`, and it is rounded to the magnitude.
  obtain ⟨e, he⟩ := Int.eq_ofNat_of_zero_le (show 0 ≤ x.shortest.exponent by omega)
  have hnatural : x.shortest.toRat = ((x.shortest.coefficient * 10 ^ e : ℕ) : ℚ) := by
    rw [Decimal.toRat, Decimal.powerOfTen_eq, he, zpow_natCast, Nat.cast_mul, Nat.cast_pow,
      Nat.cast_ofNat]
  obtain ⟨i, hi⟩ := exists_toRat_ofRatio false (x.shortest.coefficient * 10 ^ e)
  rw [← ofRat_of_nonneg (Nat.cast_nonneg _), ← hnatural, ofRat_shortest hfinite habs] at hi
  obtain ⟨j, hj⟩ := exists_toRat_of_abs hi
  obtain ⟨places, hden⟩ := den_abs x
  have hlarge : (10 : ℚ) ^ (21 : ℤ) ≤ x.shortest.toRat := by
    rw [shortest, if_neg habs]
    exact Decimal.le_toRat_shortest (le_abs_of_normalize hfinite hnormal hj) hden
  have hcoefficient : x.shortest.coefficient ≠ 0 := by
    intro hzero
    rw [Decimal.toRat, hzero, Nat.cast_zero, zero_mul] at hlarge
    exact absurd hlarge (not_le.mpr (by positivity))
  have hsmall := lt_of_le_of_lt hlarge (Decimal.toRat_bounds hcoefficient).2
  have hpoint : 21 < x.shortest.exponent + Decimal.digitCount x.shortest.coefficient :=
    (zpow_lt_zpow_iff_right₀ (by norm_num)).mp hsmall
  exact absurd hmost (not_le.mpr hpoint)

end Binary64

end Motion

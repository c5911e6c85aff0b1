import Motion.Easing.Program
import Motion.Proofs.Number.Literal
import Motion.Proofs.Number.Shortest
import Motion.Proofs.Number.Text

/-!
A finite number in an expression reads back. Its text is a sign and a decimal literal: the digits of
an integer where it is whole, else its shortest decimal laid out. Both literals are rounded to the
magnitude, so that the number comes back; only the sign of a zero is lost, and so the text of a
number is determined by its rational value (`Binary64.plain?_text`, `Binary64.text_ofRat_toRat`).
-/

set_option autoImplicit false
set_option relaxedAutoImplicit false

namespace Motion

namespace Binary64

/-- The sign does not matter for how a magnitude is rounded. -/
theorem ofRatio_sign {q : ℚ} {s t : Bool} {exponent : Fin 2047} {fraction : Fin fractionCount}
    (h : ofRatio s q = finite t exponent fraction) (negative : Bool) :
    ofRatio negative q = finite negative exponent fraction := by
  unfold ofRatio ofUnits at h ⊢
  dsimp only at h ⊢
  split_ifs at h ⊢
  cases h
  rfl

/-- What is less than half a unit is rounded to zero. -/
theorem ofUnits_small (negative : Bool) {n d : ℕ} (h : 2 * n < d) :
    ofUnits negative n d = zero negative := by
  have hquotient : n / d = 0 := Nat.div_eq_of_lt (by omega)
  have hround : roundHalfEven n d = 0 := by
    rw [roundHalfEven, Nat.mod_eq_of_lt (by omega), if_pos h, hquotient]
  have hword : (Nat.log2 (n / d) - 52) * fractionCount +
      roundHalfEven n (d * Nat.pow 2 (Nat.log2 (n / d) - 52)) = 0 := by
    have hlog : Nat.log2 0 - 52 = 0 := rfl
    rw [hquotient, hlog, Nat.zero_mul, Nat.zero_add, Nat.pow_eq, pow_zero, Nat.mul_one, hround]
  unfold ofUnits
  dsimp only
  simp only [hword]
  rfl

/-- What has too many binary digits is rounded to an infinity. -/
theorem ofUnits_large (negative : Bool) {n d k : ℕ} (h : 2 ^ k ≤ n / d) (hk : 2099 ≤ k) :
    ofUnits negative n d = infinite negative := by
  have hlog : k ≤ Nat.log2 (n / d) :=
    (Nat.le_log2 ((Nat.two_pow_pos k).trans_le h).ne').mpr h
  have hword (m : ℕ) :
      ¬ ((Nat.log2 (n / d) - 52) * fractionCount + m) / fractionCount < 2047 := by
    rw [Nat.mul_comm, Nat.mul_add_div (Nat.zero_lt_succ _)]
    exact not_lt.mpr (Nat.le_add_right_of_le (Nat.le_sub_of_add_le (by omega)))
  exact dif_neg (hword _)

theorem two_pow_le_ten_pow (n : ℕ) : 2 ^ (3 * n) ≤ 10 ^ n := by
  rw [pow_mul]
  exact Nat.pow_le_pow_left (by decide) n

theorem ofRatio_small (negative : Bool) {q : ℚ} (hq : 0 ≤ q) {n : ℕ} (hn : 400 ≤ n)
    (h : q * 10 ^ n < 1) : ofRatio negative q = zero negative := by
  have hunits {unit k : ℕ} (hunit : unit = Nat.pow 2 k) (hk : k + 1 ≤ 1200) :
      2 * unit ≤ 10 ^ n := by
    rw [hunit, Nat.pow_eq, ← pow_succ']
    exact le_trans (Nat.pow_le_pow_right (by decide) (by omega)) (two_pow_le_ten_pow n)
  have hnum : q.num.natAbs * 10 ^ n < q.den := by
    have hcross : ((q.num.natAbs : ℤ) : ℚ) * 10 ^ n < q.den := by
      rw [Int.natAbs_of_nonneg (Rat.num_nonneg.mpr hq), ← Rat.mul_den_eq_num, mul_right_comm]
      exact mul_lt_of_lt_one_left (Nat.cast_pos.mpr q.den_pos) h
    exact_mod_cast hcross
  refine ofUnits_small negative (lt_of_le_of_lt ?_ hnum)
  rw [Nat.mul_left_comm]
  exact Nat.mul_le_mul_left _ (hunits unitsPerOne_eq (by decide))

theorem ofRatio_large (negative : Bool) {q : ℚ} {n : ℕ} (hn : 400 ≤ n) (hq : 10 ^ n ≤ q) :
    ofRatio negative q = infinite negative := by
  have hnonneg : 0 ≤ q := le_trans (by positivity) hq
  have hnum : 10 ^ n * q.den ≤ q.num.natAbs := by
    have hcross : (10 ^ n * q.den : ℚ) ≤ ((q.num.natAbs : ℤ) : ℚ) := by
      rw [Int.natAbs_of_nonneg (Rat.num_nonneg.mpr hnonneg), ← Rat.mul_den_eq_num]
      exact mul_le_mul_of_nonneg_right hq (Nat.cast_nonneg _)
    exact_mod_cast hcross
  have hunits {unit k : ℕ} (hunit : unit = Nat.pow 2 k) :
      2 ^ (3 * n + k) * q.den ≤ q.num.natAbs * unit := by
    rw [hunit, Nat.pow_eq, pow_add, Nat.mul_right_comm]
    exact Nat.mul_le_mul_right _ (le_trans (Nat.mul_le_mul_right _ (two_pow_le_ten_pow n)) hnum)
  exact ofUnits_large negative ((Nat.le_div_iff_mul_le q.den_pos).mpr (hunits unitsPerOne_eq))
    (by omega)

end Binary64

namespace Numeral

/-- A decimal that is rounded to a finite number other than zero is read as that number. -/
theorem nearest_of_ofRatio {x : Decimal} {exponent : Fin 2047} {fraction : Fin fractionCount}
    (h : Binary64.ofRatio false x.toRat = .finite false exponent fraction)
    (hzero : Binary64.finite false exponent fraction ≠ .zero false) (negative : Bool) :
    nearest negative x = .finite negative exponent fraction := by
  have hten : (1 : ℚ) ≤ 10 := by norm_num
  have hcoefficient : x.coefficient ≠ 0 := by
    intro hx
    rw [Decimal.toRat, hx, Nat.cast_zero, zero_mul,
      Binary64.ofRatio_small false (le_refl 0) (le_refl 400) (by rw [zero_mul]; exact one_pos)] at h
    exact hzero h.symm
  obtain ⟨hleast, hmost⟩ := Decimal.toRat_bounds hcoefficient
  have hnonneg : 0 ≤ x.toRat := le_trans (zpow_nonneg (by norm_num) _) hleast
  have hlow : ¬ x.exponent + Decimal.digitCount x.coefficient < -400 := by
    intro hpoint
    obtain ⟨n, hn⟩ := Int.eq_ofNat_of_zero_le
      (show 0 ≤ -(x.exponent + Decimal.digitCount x.coefficient) by omega)
    have hpower : x.exponent + Decimal.digitCount x.coefficient = -(n : ℤ) := by omega
    rw [hpower, zpow_neg, zpow_natCast] at hmost
    have hsmall : x.toRat * 10 ^ n < 1 := by
      rwa [← lt_inv_mul_iff₀' (by positivity), mul_one]
    rw [Binary64.ofRatio_small false hnonneg (by omega) hsmall] at h
    exact hzero h.symm
  have hhigh : ¬ 400 < x.exponent + Decimal.digitCount x.coefficient := by
    intro hpoint
    have hlarge : (10 : ℚ) ^ 400 ≤ x.toRat := by
      rw [← zpow_natCast]
      exact le_trans (zpow_le_zpow_right₀ hten (by omega)) hleast
    rw [Binary64.ofRatio_large false (le_refl 400) hlarge] at h
    cases h
  rw [nearest, if_neg (not_or.mpr ⟨hcoefficient, hlow⟩), if_neg hhigh]
  exact Binary64.ofRatio_sign h negative

theorem takeSign_of_decimal? {s : List Char} {x : Decimal} (h : decimal? s = some x) :
    takeSign s = (false, s) := by
  unfold takeSign
  split
  · rw [decimal?_eq_none (by decide) (by decide)] at h
    cases h
  · rw [decimal?_eq_none (by decide) (by decide)] at h
    cases h
  · rfl

/-- A sign and a literal that is rounded to the magnitude read as the number. -/
theorem plain?_signed {body : List Char} {x : Decimal} (hbody : decimal? body = some x)
    {exponent : Fin 2047} {fraction : Fin fractionCount}
    (h : Binary64.ofRatio false x.toRat = .finite false exponent fraction)
    (hzero : Binary64.finite false exponent fraction ≠ .zero false) (negative : Bool) :
    plain? (if negative then '-' :: body else body) = some (.finite negative exponent fraction) := by
  have hsign : takeSign (if negative then '-' :: body else body) = (negative, body) := by
    cases negative with
    | true => rfl
    | false => exact takeSign_of_decimal? hbody
  rw [plain?_of_decimal? (by rw [hsign]; exact hbody), hsign, nearest_of_ofRatio h hzero]

end Numeral

namespace Binary64

variable {x : Binary64}

/-- A finite number by its sign and its magnitude. -/
theorem toRat_eq_signed (x : Binary64) :
    x.toRat = if x.isNegative then -x.abs.toRat else x.abs.toRat := by
  cases x with
  | finite negative exponent fraction =>
    simp only [toRat, abs, isNegative, Bool.false_eq_true, if_false]
  | infinite negative => cases negative <;> rfl
  | nan => rfl

theorem toRat_abs (x : Binary64) : x.abs.toRat = |x.toRat| := by
  rw [toRat_eq_signed x]
  split_ifs
  · rw [abs_neg, abs_of_nonneg x.toRat_abs_nonneg]
  · rw [abs_of_nonneg x.toRat_abs_nonneg]

theorem toRat_zero (negative : Bool) : (zero negative).toRat = 0 := by
  have hunits : (units 0 0 : ℤ) = 0 := rfl
  rw [← abs_eq_zero, ← toRat_abs, zero, toRat_abs_finite, hunits, Rat.zero_mkRat]

theorem ofRat_signed {q : ℚ} (hq : 0 < q) (negative : Bool) :
    ofRat (if negative then -q else q) = ofRatio negative q := by
  cases negative with
  | true =>
    rw [if_pos rfl, ofRat, decide_eq_true (neg_lt_zero.mpr hq), ofRatio, ofRatio,
      Rat.num_neg_eq_neg_num, Int.natAbs_neg, Rat.den_neg_eq_den]
  | false => exact ofRat_of_nonneg hq.le

/-- A number other than zero is the rounding of its value. -/
theorem ofRat_toRat (hfinite : x.isFinite = true) (hzero : x.toRat ≠ 0) : ofRat x.toRat = x := by
  have hpositive : 0 < x.abs.toRat := by
    rw [toRat_abs]
    exact abs_pos.mpr hzero
  rw [toRat_eq_signed, ofRat_signed hpositive]
  cases x with
  | finite negative exponent fraction => rw [toRat_abs_finite, ofRatio_magnitude, isNegative]
  | _ => cases hfinite

/-- The whole number of a finite number is the one that its value is. -/
theorem toInt?_eq_some_iff {i : ℤ} (hfinite : x.isFinite = true) :
    x.toInt? = some i ↔ x.toRat = i := by
  rw [toInt?, hfinite, Bool.true_and]
  constructor
  · intro h
    split_ifs at h with hden
    rw [← Option.some.inj h, Rat.coe_int_num_of_den_eq_one (beq_iff_eq.mp hden)]
  · intro h
    rw [h, Rat.den_intCast, Rat.num_intCast]
    rfl

theorem text_of_zero (hfinite : x.isFinite = true) (hzero : x.toRat = 0) : x.text = ['0'] := by
  have hint : x.toInt? = some 0 := (toInt?_eq_some_iff hfinite).mpr (by rw [hzero, Int.cast_zero])
  rw [text, Number.textChars, Number.normalize, hint]
  rfl

theorem isNegative_iff (hzero : x.toRat ≠ 0) : x.isNegative = true ↔ x.toRat < 0 := by
  have hpositive : 0 < x.abs.toRat := by
    rw [toRat_abs]
    exact abs_pos.mpr hzero
  rw [toRat_eq_signed]
  cases x.isNegative with
  | true => exact ⟨fun _ ↦ neg_lt_zero.mpr hpositive, fun _ ↦ rfl⟩
  | false => exact ⟨fun h ↦ (by cases h), fun h ↦ absurd h (not_lt.mpr hpositive.le)⟩

theorem ofRat_abs (hfinite : x.isFinite = true) (hzero : x.toRat ≠ 0) :
    ofRat |x.toRat| = x.abs := by
  rw [← toRat_abs]
  refine ofRat_toRat ?_ ?_
  · cases x with
    | finite negative exponent fraction => rfl
    | _ => cases hfinite
  · rw [toRat_abs]
    exact abs_ne_zero.mpr hzero

theorem intText_eq_signed {i : ℤ} (hi : x.toRat = i) (hzero : x.toRat ≠ 0) :
    Number.intText i =
      if x.isNegative then '-' :: Decimal.digitsOf i.natAbs else Decimal.digitsOf i.natAbs := by
  have hsign := isNegative_iff hzero
  rw [hi, Int.cast_lt_zero] at hsign
  cases i with
  | ofNat n => exact (if_neg (by simp [hsign])).symm
  | negSucc n => exact (if_pos (hsign.mpr (Int.negSucc_lt_zero n))).symm

/-- The text of a number is a sign and the literal of a decimal that is rounded to its magnitude. -/
theorem text_eq_signed (hfinite : x.isFinite = true) (hzero : x.toRat ≠ 0) :
    ∃ body d, x.text = (if x.isNegative then '-' :: body else body) ∧
      Numeral.decimal? body = some d ∧ ofRat d.toRat = x.abs := by
  rw [text, Number.textChars]
  cases hnormal : (Number.float x).normalize with
  | int i =>
    have hi : x.toRat = i := by
      rw [Number.normalize] at hnormal
      split at hnormal
      · rename_i j hj
        split_ifs at hnormal
        cases hnormal
        exact (toInt?_eq_some_iff hfinite).mp hj
      · cases hnormal
    refine ⟨Decimal.digitsOf i.natAbs, _, intText_eq_signed hi hzero,
      Numeral.decimal?_digits Nat.toDigits_ne_nil fun c ↦ Numeral.isDigit_of_mem_digitsOf, ?_⟩
    rw [Decimal.toRat, Numeral.ofDigits_digitsOf, Decimal.powerOfTen_eq, zpow_zero, mul_one,
      ← ofRat_abs hfinite hzero, hi, Nat.cast_natAbs, Int.cast_abs]
  | float y =>
    have hy : y = x := by
      rcases Number.normalize_float x with h | ⟨i, h⟩
      · rw [h] at hnormal
        cases hnormal
        rfl
      · rw [h] at hnormal
        cases hnormal
    obtain ⟨d, hd, hvalue⟩ := Layout.exists_decimal?_magnitude Layout.isPlain_expression
      (isDigits_digitsOf x.shortest.coefficient)
      (x.shortest.exponent + (Decimal.digitsOf x.shortest.coefficient).length)
    refine ⟨_, d, ?_, hd, ?_⟩
    · rw [hy]
      cases x with
      | finite negative exponent fraction => rfl
      | _ => cases hfinite
    · rw [hvalue, add_sub_cancel_right, Numeral.ofDigits_digitsOf, ← Decimal.powerOfTen_eq]
      refine ofRat_shortest hfinite ?_
      rw [toRat_abs]
      exact abs_ne_zero.mpr hzero

/-- The text of a finite number reads as the number, but a zero as the positive one. -/
theorem plain?_text (hfinite : x.isFinite = true) :
    Numeral.plain? x.text = some (if x.toRat = 0 then zero false else x) := by
  split_ifs with hzero
  · rw [text_of_zero hfinite hzero]
    decide +kernel
  · obtain ⟨body, d, htext, hd, hround⟩ := text_eq_signed hfinite hzero
    cases x with
    | finite negative exponent fraction =>
      have hmagnitude : finite false exponent fraction ≠ zero false := by
        intro h
        refine hzero ?_
        rw [← abs_eq_zero, ← toRat_abs, abs, h, toRat_zero]
      rw [htext]
      refine Numeral.plain?_signed hd ?_ hmagnitude negative
      exact ofRatio_sign hround false
    | _ => cases hfinite

/-- The text of a finite number reads as a number with the same value. -/
theorem exists_plain?_text (hfinite : x.isFinite = true) :
    ∃ y, Numeral.plain? x.text = some y ∧ (Number.float y).toRat? = some x.toRat := by
  refine ⟨_, plain?_text hfinite, ?_⟩
  split_ifs with hzero
  · rw [Number.toRat?, hzero, toRat_zero]
    rfl
  · rw [Number.toRat?, if_pos hfinite]

/-- The text of a finite number is determined by its value. -/
theorem text_ofRat_toRat (hfinite : x.isFinite = true) : (ofRat x.toRat).text = x.text := by
  by_cases hzero : x.toRat = 0
  · have hnearest : ofRat 0 = zero false := by
      rw [ofRat_of_nonneg (le_refl 0)]
      exact ofRatio_small false (le_refl 0) (le_refl 400) (by rw [zero_mul]; exact one_pos)
    rw [text_of_zero hfinite hzero, hzero, hnearest, text_of_zero rfl (toRat_zero false)]
  · rw [ofRat_toRat hfinite hzero]

end Binary64

end Motion

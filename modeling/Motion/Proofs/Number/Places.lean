import Motion.Proofs.Number.RoundTrip

/-!
The exact value of a literal. A number in a program is a sign and a decimal literal, whether it is
written in its shortest form, as an integer or with a fixed count of places. In the last form it
denotes the number to within half a unit of the last place (`Binary64.literal?_componentText`).
-/

set_option autoImplicit false
set_option relaxedAutoImplicit false

namespace Motion

/-- The whole number nearest to `n / d` is at most a half away from it. -/
theorem roundHalfEven_near {d : ℕ} (hd : 0 < d) (n : ℕ) :
    2 * n ≤ 2 * (roundHalfEven n d * d) + d ∧ 2 * (roundHalfEven n d * d) ≤ 2 * n + d := by
  have hdivision : n / d * d + n % d = n := Nat.div_add_mod' n d
  have hless : n % d < d := Nat.mod_lt n hd
  have hnext : (n / d + 1) * d = n / d * d + d := Nat.succ_mul _ _
  unfold roundHalfEven
  dsimp only
  split_ifs <;> omega

/-- The whole number nearest to a multiple of a rational. -/
theorem roundHalfEven_scaled {q : ℚ} (hq : 0 ≤ q) (k : ℕ) :
    2 * |(roundHalfEven (q.num.natAbs * k) q.den : ℚ) - q * k| ≤ 1 := by
  have hden : (0 : ℚ) < q.den := Nat.cast_pos.mpr q.den_pos
  have hnum : ((q.num.natAbs : ℕ) : ℚ) = q * q.den := by
    have hcast : ((q.num.natAbs : ℕ) : ℚ) = ((q.num.natAbs : ℤ) : ℚ) := rfl
    rw [Rat.mul_den_eq_num, hcast, Int.natAbs_of_nonneg (Rat.num_nonneg.mpr hq)]
  obtain ⟨hbelow, habove⟩ := roundHalfEven_near q.den_pos (q.num.natAbs * k)
  generalize roundHalfEven (q.num.natAbs * k) q.den = rounded at hbelow habove ⊢
  have hbelow' : (2 * (q.num.natAbs * k) : ℚ) ≤ 2 * (rounded * q.den) + q.den := by
    exact_mod_cast hbelow
  have habove' : (2 * (rounded * q.den) : ℚ) ≤ 2 * (q.num.natAbs * k) + q.den := by
    exact_mod_cast habove
  rw [hnum] at hbelow' habove'
  have hlower : 2 * (q * k) ≤ 2 * rounded + 1 := by
    refine le_of_mul_le_mul_right ?_ hden
    linarith
  have hupper : 2 * (rounded : ℚ) ≤ 2 * (q * k) + 1 := by
    refine le_of_mul_le_mul_right ?_ hden
    linarith
  rw [← abs_two, ← abs_mul, abs_le]
  constructor <;> linarith

namespace Numeral

/-- The exact value of a decimal literal with a sign or without one. -/
def literal? (s : List Char) : Option ℚ :=
  (decimal? (takeSign s).2).map fun x ↦ if (takeSign s).1 then -x.toRat else x.toRat

theorem literal?_signed {body : List Char} {x : Decimal} (hbody : decimal? body = some x)
    (negative : Bool) :
    literal? (if negative then '-' :: body else body) =
      some (if negative then -x.toRat else x.toRat) := by
  have hsign : takeSign (if negative then '-' :: body else body) = (negative, body) := by
    cases negative with
    | true => rfl
    | false => exact takeSign_of_decimal? hbody
  rw [literal?, hsign, hbody, Option.map_some]

theorem literal?_intText (i : ℤ) : literal? (Number.intText i) = some (i : ℚ) := by
  have hread (n : ℕ) : decimal? (Decimal.digitsOf n) = some ⟨n, 0⟩ := by
    have hread := decimal?_digits (s := Decimal.digitsOf n) Nat.toDigits_ne_nil
      fun c ↦ isDigit_of_mem_digitsOf
    rw [hread, ofDigits_digitsOf]
  have hvalue (n : ℕ) : (⟨n, 0⟩ : Decimal).toRat = n := by
    rw [Decimal.toRat, Decimal.powerOfTen_eq, zpow_zero, mul_one]
  cases i with
  | ofNat n =>
    have hsigned := literal?_signed (hread n) false
    rw [hvalue] at hsigned
    exact hsigned
  | negSucc n =>
    have hsigned := literal?_signed (hread (n + 1)) true
    rw [hvalue] at hsigned
    rw [Int.cast_negSucc]
    exact hsigned

end Numeral

namespace Literal

def value (l : Literal) : ℚ :=
  if l.negative then -l.decimal.toRat else l.decimal.toRat

/-- The text of a literal denotes its value and nothing else. -/
theorem literal?_chars (l : Literal) : Numeral.literal? l.chars = some l.value :=
  Numeral.literal?_signed l.decimal?_unsigned l.negative

end Literal

namespace Numeral

theorem isNumberCharacter_of_takeSign {s : List Char}
    (h : ∀ c ∈ (takeSign s).2, isNumberCharacter c = true) :
    ∀ c ∈ s, isNumberCharacter c = true := by
  unfold takeSign at h
  split at h
  · exact List.forall_mem_cons.mpr ⟨by decide, h⟩
  · exact List.forall_mem_cons.mpr ⟨by decide, h⟩
  · exact h

theorem isNumberCharacter_of_exponent? {s : List Char} {e : ℤ} (h : exponent? s = some e) :
    ∀ c ∈ s, isNumberCharacter c = true := by
  cases s with
  | nil => exact List.forall_mem_nil _
  | cons mark rest =>
    rw [exponent?] at h
    split_ifs at h with hmark
    dsimp only at h
    split_ifs at h with hdigits
    rw [Bool.or_eq_true, not_or, Bool.not_eq_true', Bool.not_eq_false] at hdigits
    have hall := fun c hc ↦ isNumberCharacter_of_isDigit (List.all_eq_true.mp hdigits.2 c hc)
    refine List.forall_mem_cons.mpr ⟨?_, isNumberCharacter_of_takeSign hall⟩
    rcases hmark with rfl | rfl <;> decide

theorem isNumberCharacter_of_decimal? {s : List Char} {x : Decimal} (h : decimal? s = some x) :
    ∀ c ∈ s, isNumberCharacter c = true := by
  have hspan (t : List Char) (hrest : ∀ c ∈ t.dropWhile Char.isDigit, isNumberCharacter c = true) :
      ∀ c ∈ t, isNumberCharacter c = true := by
    rw [← List.takeWhile_append_dropWhile (p := Char.isDigit) (l := t)]
    exact List.forall_mem_append.mpr
      ⟨fun c hc ↦ isNumberCharacter_of_isDigit (List.mem_takeWhile_imp hc), hrest⟩
  -- First digits, then a point with more of them or none, and then the exponent.
  refine hspan s ?_
  unfold decimal? at h
  dsimp only at h
  split at h
  · rename_i rest hpoint
    split_ifs at h
    obtain ⟨e, he, -⟩ := Option.map_eq_some_iff.mp h
    rw [hpoint]
    exact List.forall_mem_cons.mpr
      ⟨by decide, hspan rest (isNumberCharacter_of_exponent? he)⟩
  · split_ifs at h
    obtain ⟨e, he, -⟩ := Option.map_eq_some_iff.mp h
    exact isNumberCharacter_of_exponent? he

theorem isNumberCharacter_of_literal? {s : List Char} (h : (literal? s).isSome = true) :
    ∀ c ∈ s, isNumberCharacter c = true := by
  rw [literal?, Option.isSome_map, Option.isSome_iff_exists] at h
  obtain ⟨x, hx⟩ := h
  exact isNumberCharacter_of_takeSign (isNumberCharacter_of_decimal? hx)

end Numeral

namespace Layout

open Numeral

/-- Digits with a point in front of the last ones, if there are to be places. -/
def pointed (places : ℕ) (digits : List Char) : List Char :=
  let whole := digits.take (digits.length - places)
  if places = 0 then whole else whole ++ '.' :: digits.drop (digits.length - places)

theorem fixedPlaces_finite (places : ℕ) {x : Binary64} (hfinite : x.isFinite = true) :
    fixedPlaces places x =
      let body := pointed places (padded (places + 1)
        (roundHalfEven (x.abs.toRat.num.natAbs * Nat.pow 10 places) x.abs.toRat.den))
      if x.isNegative then '-' :: body else body := by
  cases x with
  | finite negative exponent fraction => rfl
  | _ => cases hfinite

theorem exists_decimal?_pointed {digits : List Char} (hdigits : ∀ c ∈ digits, c.isDigit = true)
    {places : ℕ} (hlength : places < digits.length) :
    ∃ x, decimal? (pointed places digits) = some x ∧ x.toRat * 10 ^ places = ofDigits digits := by
  unfold pointed
  dsimp only
  split_ifs with hplaces
  · have hne : digits ≠ [] := List.ne_nil_of_length_pos (by omega)
    refine ⟨⟨ofDigits digits, 0⟩, ?_, ?_⟩
    · rw [hplaces, Nat.sub_zero, List.take_length]
      exact decimal?_digits hne hdigits
    · rw [hplaces, pow_zero, mul_one, Decimal.toRat, Decimal.powerOfTen_eq, zpow_zero, mul_one]
  · have hne : digits.take (digits.length - places) ≠ [] := by
      refine List.ne_nil_of_length_pos ?_
      rw [List.length_take]
      omega
    have hfraction : (digits.drop (digits.length - places)).length = places := by
      rw [List.length_drop]
      omega
    have hread : decimal? (digits.take (digits.length - places) ++
        '.' :: (digits.drop (digits.length - places) ++ [])) = some ⟨_, 0 - _⟩ :=
      decimal?_point hne (fun c hc ↦ hdigits c (List.mem_of_mem_take hc))
        (fun c hc ↦ hdigits c (List.mem_of_mem_drop hc)) (fun c hc ↦ (by cases hc))
    rw [List.append_nil, List.take_append_drop, hfraction, zero_sub] at hread
    refine ⟨⟨ofDigits digits, -places⟩, hread, ?_⟩
    rw [Decimal.toRat, Decimal.powerOfTen_eq, zpow_neg, zpow_natCast,
      inv_mul_cancel_right₀ (by positivity)]

/-- A finite number with a fixed count of places is a literal, which denotes the number to within
half a unit of the last place. -/
theorem literal?_fixedPlaces (places : ℕ) {x : Binary64} (hfinite : x.isFinite = true) :
    ∃ q, literal? (fixedPlaces places x) = some q ∧
      2 * |q * 10 ^ places - x.toRat * 10 ^ places| ≤ 1 := by
  have hround := roundHalfEven_scaled x.toRat_abs_nonneg (Nat.pow 10 places)
  rw [fixedPlaces_finite places hfinite]
  generalize roundHalfEven (x.abs.toRat.num.natAbs * Nat.pow 10 places) x.abs.toRat.den = scaled
    at hround ⊢
  obtain ⟨d, hd, hvalue⟩ := exists_decimal?_pointed (isDigit_of_mem_padded (places + 1) scaled)
    (Nat.lt_of_succ_le (length_padded (places + 1) scaled))
  have hpower : ((Nat.pow 10 places : ℕ) : ℚ) = 10 ^ places := by
    rw [Nat.pow_eq, Nat.cast_pow, Nat.cast_ofNat]
  rw [ofDigits_padded] at hvalue
  rw [hpower, ← hvalue] at hround
  -- The magnitude is rounded and the sign put in front, so both signs are equally far off.
  refine ⟨_, literal?_signed hd x.isNegative, ?_⟩
  rw [Binary64.toRat_eq_signed x]
  split_ifs
  · rw [neg_mul, neg_mul, neg_sub_neg, abs_sub_comm]
    exact hround
  · exact hround

end Layout

namespace Binary64

open Numeral

variable {x : Binary64}

/-- A finite number in a program is a literal. -/
theorem isSome_literal?_text (hfinite : x.isFinite = true) : (literal? x.text).isSome = true := by
  by_cases hzero : x.toRat = 0
  · rw [text_of_zero hfinite hzero]
    decide +kernel
  · obtain ⟨body, d, htext, hd, -⟩ := text_eq_signed hfinite hzero
    rw [htext, literal?_signed hd]
    rfl

/-- A component of a vector is a literal, which denotes it to within half a unit of the last
place. -/
theorem literal?_componentText (precision : ℕ) (hfinite : x.isFinite = true) :
    ∃ q, literal? (componentText precision x) = some q ∧
      2 * |q * 10 ^ precision - x.toRat * 10 ^ precision| ≤ 1 := by
  unfold componentText
  cases hwhole : x.toInt? with
  | some i =>
    refine ⟨i, literal?_intText i, ?_⟩
    rw [(toInt?_eq_some_iff hfinite).mp hwhole, sub_self, abs_zero, mul_zero]
    exact zero_le_one
  | none => exact Layout.literal?_fixedPlaces precision hfinite

end Binary64

end Motion

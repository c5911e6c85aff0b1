import Motion.Proofs.Number.Lossless
import Motion.Proofs.Number.Minimal

/-!
The texts that the runtime of expressions has for its numbers, which are all binary64 numbers. They
are told by rules of their own (`Spells`, `Binary64.IsRuntimeText`): the digits are those of the
decimal that comes before all others, positional from `1e-6` up to below `1e21`. Every number has
one such text, and it is the text of the number in expressions (`numberText_runtime`), unless the
number is whole, below `10 ^ 21` in magnitude and not equal to its shortest decimal. Then all its
digits are written out, where the runtime has zeros behind the shortest ones. Below `2 ^ 53` there
is no such number.
-/

set_option autoImplicit false
set_option relaxedAutoImplicit false

namespace Motion

open Numeral

/-- How the runtime writes the magnitude `0.digits * 10 ^ point`: with zeros up to the point, with
the point between two digits, with zeros behind the point, or with an exponent. -/
inductive Spells (digits : List Char) (point : ℤ) : List Char → Prop
  | whole (zeros : ℕ) (hpoint : point = digits.length + zeros) (hmost : point ≤ 21) :
    Spells digits point (digits ++ List.replicate zeros '0')
  | mixed (before after : List Char) (hdigits : digits = before ++ after)
    (hpoint : point = before.length) (hbefore : before ≠ []) (hafter : after ≠ [])
    (hmost : point ≤ 21) : Spells digits point (before ++ '.' :: after)
  | small (zeros : ℕ) (hpoint : point = -zeros) (hleast : -6 < point) :
    Spells digits point ('0' :: '.' :: (List.replicate zeros '0' ++ digits))
  | scientific (first : Char) (rest : List Char) (hdigits : digits = first :: rest)
    (houter : point ≤ -6 ∨ 21 < point) :
    Spells digits point (first :: ((if rest = [] then [] else '.' :: rest) ++
      'e' :: (if 0 < point then '+' else '-') :: Decimal.digitsOf (point - 1).natAbs))

section Spelling

variable {digits text : List Char} {point : ℤ}

theorem padded_one (n : ℕ) : Layout.padded 1 n = Decimal.digitsOf n := by
  have hpos : 1 ≤ (Decimal.digitsOf n).length := Decimal.digitCount_pos n
  unfold Layout.padded
  dsimp only
  rw [Nat.sub_eq_zero_of_le hpos]
  rfl

/-- The layout of expressions for a magnitude without an exponent. -/
theorem magnitude_inner (digits : List Char) (hleast : -6 < point) (hmost : point ≤ 21) :
    Layout.expression.magnitude digits point =
      if digits.length ≤ point then
        digits ++ List.replicate (point - digits.length).toNat '0'
      else if 0 < point then digits.take point.toNat ++ '.' :: digits.drop point.toNat
      else '0' :: '.' :: (List.replicate (-point).toNat '0' ++ digits) := by
  have hinner : Layout.expression.leastPoint ≤ point ∧ point ≤ Layout.expression.greatestPoint :=
    ⟨hleast, hmost⟩
  have hsuffix : Layout.expression.wholeSuffix = [] := rfl
  unfold Layout.magnitude
  dsimp only
  rw [if_pos hinner, hsuffix, List.append_nil]
  rfl

/-- The layout of expressions for a magnitude with an exponent. -/
theorem magnitude_outer (first : Char) (rest : List Char) (houter : point ≤ -6 ∨ 21 < point) :
    Layout.expression.magnitude (first :: rest) point =
      first :: ((if rest = [] then [] else '.' :: rest) ++
        'e' :: (if 0 < point then '+' else '-') :: Decimal.digitsOf (point - 1).natAbs) := by
  have hinner :
      ¬ (Layout.expression.leastPoint ≤ point ∧ point ≤ Layout.expression.greatestPoint) := by
    rintro ⟨hleast, hmost⟩
    have hsmall : -5 ≤ point := hleast
    have hlarge : point ≤ 21 := hmost
    omega
  have hsign : (0 ≤ point - 1) = (0 < point) := propext Int.sub_nonneg
  have hwidth : Layout.expression.exponentWidth = 1 := rfl
  unfold Layout.magnitude
  dsimp only
  rw [if_neg hinner, hwidth, padded_one]
  simp only [hsign]
  cases rest with
  | nil => rfl
  | cons second rest => rfl

theorem Spells.eq_magnitude (hne : digits ≠ []) (h : Spells digits point text) :
    text = Layout.expression.magnitude digits point := by
  have hlength : 0 < digits.length := List.length_pos_iff.mpr hne
  cases h with
  | whole zeros hpoint hmost =>
    rw [magnitude_inner digits (by omega) hmost, if_pos (by omega), hpoint, add_sub_cancel_left,
      Int.toNat_natCast]
  | mixed before after hdigits hpoint hbefore hafter hmost =>
    have hfirst : 0 < before.length := List.length_pos_iff.mpr hbefore
    have hsecond : 0 < after.length := List.length_pos_iff.mpr hafter
    rw [hdigits, List.length_append] at hlength
    rw [magnitude_inner digits (by omega) hmost, hdigits, List.length_append, if_neg (by omega),
      if_pos (by omega), hpoint, Int.toNat_natCast, List.take_left, List.drop_left]
  | small zeros hpoint hleast =>
    rw [magnitude_inner digits hleast (by omega), if_neg (by omega), if_neg (by omega), hpoint,
      neg_neg, Int.toNat_natCast]
  | scientific first rest hdigits houter =>
    rw [hdigits, magnitude_outer first rest houter]

theorem spells_magnitude (hne : digits ≠ []) (point : ℤ) :
    Spells digits point (Layout.expression.magnitude digits point) := by
  by_cases houter : point ≤ -6 ∨ 21 < point
  · obtain ⟨first, rest, rfl⟩ := List.exists_cons_of_ne_nil hne
    rw [magnitude_outer first rest houter]
    exact .scientific first rest rfl houter
  · rw [not_or, not_le, not_lt] at houter
    obtain ⟨hleast, hmost⟩ := houter
    rw [magnitude_inner digits hleast hmost]
    split_ifs with hwhole hpositive
    · exact .whole _ (by omega) hmost
    · refine .mixed _ _ (List.take_append_drop _ digits).symm ?_ ?_ ?_ hmost
      · rw [List.length_take]
        omega
      · rw [← List.length_pos_iff, List.length_take]
        omega
      · rw [← List.length_pos_iff, List.length_drop]
        omega
    · exact .small _ (by omega) hleast

/-- The layout of expressions spells what the runtime does. -/
theorem spells_iff (hne : digits ≠ []) :
    Spells digits point text ↔ text = Layout.expression.magnitude digits point := by
  constructor
  · exact fun h ↦ h.eq_magnitude hne
  · rintro rfl
    exact spells_magnitude hne point

end Spelling

namespace Binary64

/-- The texts of a number in the runtime of expressions. -/
inductive IsRuntimeText : Binary64 → List Char → Prop
  | nan : IsRuntimeText .nan "NaN".toList
  | zero (negative : Bool) : IsRuntimeText (.zero negative) "0".toList
  | infinite : IsRuntimeText (.infinite false) "Infinity".toList
  | negative {x : Binary64} {text : List Char} (hnegative : x.isNegative = true)
    (hzero : x ≠ .zero true) (htext : IsRuntimeText x.neg text) : IsRuntimeText x ('-' :: text)
  | positive {x : Binary64} {text : List Char} {d : Decimal} (hpositive : 0 < x.toRat)
    (hshortest : x.HasShortest d)
    (htext : Spells (Decimal.digitsOf d.coefficient)
      (d.exponent + Decimal.digitCount d.coefficient) text) : IsRuntimeText x text

section Runtime

variable {x : Binary64} {text : List Char}

theorem render_of_finite (hfinite : x.isFinite = true) : Layout.expression.render x =
    let body := Layout.expression.magnitude (Decimal.digitsOf x.shortest.coefficient)
      (x.shortest.exponent + Decimal.digitCount x.shortest.coefficient)
    if x.isNegative then '-' :: body else body := by
  cases x with
  | finite negative exponent fraction => rfl
  | _ => cases hfinite

theorem isNegative_of_pos (h : 0 < x.toRat) : x.isNegative = false := by
  rw [← Bool.not_eq_true, isNegative_iff h.ne']
  exact h.not_gt

/-- The runtime's text of a positive number. -/
theorem isRuntimeText_iff_of_pos (h : 0 < x.toRat) :
    x.IsRuntimeText text ↔ text = Layout.expression.render x := by
  have hdigits (n : ℕ) : Decimal.digitsOf n ≠ [] := (isDigits_digitsOf n).ne_nil
  rw [render_of_finite (isFinite_of_toRat h.ne'), isNegative_of_pos h]
  constructor
  · intro htext
    cases htext with
    | nan => exact absurd h (lt_irrefl 0)
    | zero negative => exact absurd (toRat_zero negative) h.ne'
    | infinite => exact absurd h (lt_irrefl 0)
    | negative hnegative hzero htext =>
      rw [isNegative_of_pos h] at hnegative
      cases hnegative
    | positive hpositive hshortest htext =>
      rw [hshortest.unique h.ne'] at htext
      exact htext.eq_magnitude (hdigits _)
  · rintro rfl
    exact .positive h (hasShortest_shortest h.ne') (spells_magnitude (hdigits _) _)

theorem shortest_neg (x : Binary64) : x.neg.shortest = x.shortest := by
  have habs : x.neg.abs = x.abs := by
    cases x <;> rfl
  unfold shortest
  rw [habs]

theorem isNegative_neg (hnegative : x.isNegative = true) : x.neg.isNegative = false := by
  cases x with
  | nan => rfl
  | _ =>
    cases hnegative
    rfl

/-- A number with a sign is written as its magnitude behind a minus sign. -/
theorem render_neg (hnegative : x.isNegative = true) :
    Layout.expression.render x = '-' :: Layout.expression.render x.neg := by
  have hplain := isNegative_neg hnegative
  cases x with
  | nan => cases hnegative
  | infinite negative =>
    cases hnegative
    rfl
  | finite negative exponent fraction =>
    rw [render_of_finite rfl, render_of_finite (x := neg _) rfl, shortest_neg, hnegative, hplain]
    dsimp only
    rw [if_pos rfl, if_neg Bool.false_ne_true]

/-- The runtime's text of a number with a sign, other than zero. -/
theorem isRuntimeText_iff_of_isNegative (hnegative : x.isNegative = true) (hzero : x ≠ .zero true) :
    x.IsRuntimeText text ↔ ∃ body, x.neg.IsRuntimeText body ∧ text = '-' :: body := by
  constructor
  · intro htext
    cases htext with
    | nan => cases hnegative
    | zero negative =>
      cases hnegative
      exact absurd rfl hzero
    | infinite => cases hnegative
    | negative _ _ hbody => exact ⟨_, hbody, rfl⟩
    | positive hpositive =>
      rw [isNegative_of_pos hpositive] at hnegative
      cases hnegative
  · rintro ⟨body, hbody, rfl⟩
    exact .negative hnegative hzero hbody

/-- Only the two zeros have the value zero. -/
theorem eq_zero_of_toRat (hfinite : x.isFinite = true) (hzero : x.toRat = 0) :
    ∃ negative, x = .zero negative := by
  cases x with
  | finite negative exponent fraction =>
    have habs := toRat_abs_finite negative exponent fraction
    rw [toRat_abs, hzero, abs_zero] at habs
    have hround := ofRatio_magnitude negative exponent fraction
    rw [← habs, ofRatio_small negative le_rfl le_rfl (by rw [zero_mul]; exact one_pos)] at hround
    exact ⟨negative, hround.symm⟩
  | _ => cases hfinite

theorem toRat_ne_zero (hfinite : x.isFinite = true) (hzero : ∀ negative, x ≠ .zero negative) :
    x.toRat ≠ 0 := by
  intro h
  obtain ⟨negative, hnegative⟩ := eq_zero_of_toRat hfinite h
  exact hzero negative hnegative

theorem isRuntimeText_zero_iff {negative : Bool} :
    (zero negative).IsRuntimeText text ↔ text = ['0'] := by
  constructor
  · intro htext
    generalize hx : zero negative = x at htext
    cases htext with
    | nan => cases hx
    | zero => rfl
    | infinite => cases hx
    | negative hnegative hzero =>
      rw [← hx] at hnegative hzero
      exact absurd (congrArg zero hnegative) hzero
    | positive hpositive =>
      rw [← hx, toRat_zero] at hpositive
      exact absurd hpositive (lt_irrefl 0)
  · rintro rfl
    exact .zero negative

theorem isRuntimeText_nan_iff : nan.IsRuntimeText text ↔ text = Layout.expression.render nan := by
  constructor
  · intro htext
    cases htext with
    | nan => rfl
    | negative hnegative => cases hnegative
    | positive hpositive => exact absurd hpositive (lt_irrefl 0)
  · rintro rfl
    exact .nan

theorem isRuntimeText_infinite_iff :
    (infinite false).IsRuntimeText text ↔ text = Layout.expression.render (infinite false) := by
  constructor
  · intro htext
    cases htext with
    | infinite => rfl
    | negative hnegative => cases hnegative
    | positive hpositive => exact absurd hpositive (lt_irrefl 0)
  · rintro rfl
    exact .infinite

/-- A number without a sign other than zero has the text of the layout of expressions. -/
theorem isRuntimeText_iff_of_not_isNegative (hsign : x.isNegative = false)
    (hzero : ∀ negative, x ≠ .zero negative) :
    x.IsRuntimeText text ↔ text = Layout.expression.render x := by
  cases x with
  | nan => exact isRuntimeText_nan_iff
  | infinite negative =>
    cases hsign
    exact isRuntimeText_infinite_iff
  | finite negative exponent fraction =>
    cases hsign
    have hnonneg : 0 ≤ (finite false exponent fraction).toRat :=
      toRat_abs_nonneg (finite false exponent fraction)
    exact isRuntimeText_iff_of_pos (hnonneg.lt_of_ne' (toRat_ne_zero rfl hzero))

theorem neg_ne_zero_of_ne (hzero : ∀ negative, x ≠ .zero negative) (negative : Bool) :
    x.neg ≠ .zero negative := by
  intro h
  refine hzero (!negative) ?_
  cases x with
  | finite s exponent fraction =>
    cases h
    rw [Bool.not_not]
    rfl
  | _ => cases h

/-- So have the numbers with a sign. -/
theorem isRuntimeText_iff (hzero : ∀ negative, x ≠ .zero negative) :
    x.IsRuntimeText text ↔ text = Layout.expression.render x := by
  by_cases hsign : x.isNegative = true
  · have hbody (body : List Char) :
        x.neg.IsRuntimeText body ↔ body = Layout.expression.render x.neg :=
      isRuntimeText_iff_of_not_isNegative (isNegative_neg hsign) (neg_ne_zero_of_ne hzero)
    rw [isRuntimeText_iff_of_isNegative hsign (hzero true), render_neg hsign]
    constructor
    · rintro ⟨body, htext, rfl⟩
      rw [(hbody body).mp htext]
    · rintro rfl
      exact ⟨_, (hbody _).mpr rfl, rfl⟩
  · exact isRuntimeText_iff_of_not_isNegative (Bool.not_eq_true _ ▸ hsign) hzero

end Runtime

section WrittenOut

variable {x : Binary64} {i : ℤ}

/-- Whether a number other than zero is whole and below `10 ^ 21` in magnitude, but not equal to its
shortest decimal. -/
def IsWrittenOut (x : Binary64) : Prop :=
  x.toRat ≠ 0 ∧
    ∃ (i : ℤ) (d : Decimal), (Number.float x).IsInteger i ∧ x.HasShortest d ∧ d.toRat ≠ |(i : ℚ)|

/-- A natural number is spelled with all its digits if it is the decimal whose digits are spelled.
-/
theorem digitsOf_eq_magnitude_iff {d : Decimal} {n : ℕ} (hexponent : d.toRat = n → 0 ≤ d.exponent)
    (hd : d.coefficient ≠ 0) (hsmall : n < 10 ^ 21) :
    Decimal.digitsOf n = Layout.expression.magnitude (Decimal.digitsOf d.coefficient)
      (d.exponent + Decimal.digitCount d.coefficient) ↔ d.toRat = n := by
  have hdigits := isDigits_digitsOf d.coefficient
  constructor
  · intro hsame
    obtain ⟨y, hread, hvalue⟩ := Layout.exists_decimal?_magnitude Layout.isPlain_expression hdigits
      (d.exponent + Decimal.digitCount d.coefficient)
    have hnatural := isDigits_digitsOf n
    rw [← hsame, decimal?_digits hnatural.ne_nil hnatural.isDigit, ofDigits_digitsOf,
      Option.some.injEq] at hread
    rw [← hread, toRat_natural, ofDigits_digitsOf, ← Decimal.digitCount, add_sub_cancel_right,
      ← Decimal.toRat_mk] at hvalue
    exact hvalue.symm
  · intro hvalue
    obtain ⟨k, hk⟩ := Int.eq_ofNat_of_zero_le (hexponent hvalue)
    have hnatural : n = d.coefficient * 10 ^ k := by
      rw [Decimal.toRat, Decimal.powerOfTen_eq, hk, zpow_natCast] at hvalue
      exact_mod_cast hvalue.symm
    have hcount : Decimal.digitCount n ≤ 21 := (Decimal.digitCount_le_iff (by decide)).mpr hsmall
    rw [hnatural, Decimal.digitCount_mul_tenPow (Nat.pos_of_ne_zero hd)] at hcount
    rw [hnatural, Decimal.digitsOf_mul_tenPow (Nat.pos_of_ne_zero hd), ← spells_iff hdigits.ne_nil]
    exact .whole k (by rw [hk, ← Decimal.digitCount]; omega) (by omega)

/-- A whole number below `10 ^ 21` in magnitude has all its digits in the runtime's text if it is
its own shortest decimal. -/
theorem intText_eq_render_iff (hi : x.toRat = i) (hzero : x.toRat ≠ 0) (hsmall : |i| < 10 ^ 21) :
    Number.intText i = Layout.expression.render x ↔ x.shortest.toRat = |(i : ℚ)| := by
  have hshortest := hasShortest_shortest hzero
  have hmagnitude : |(i : ℚ)| = (i.natAbs : ℚ) := by
    rw [Nat.cast_natAbs, Int.cast_abs]
  have hnatural : i.natAbs < 10 ^ 21 := by
    rw [Int.abs_eq_natAbs] at hsmall
    exact_mod_cast hsmall
  have hspelled := digitsOf_eq_magnitude_iff (hshortest.exponent_nonneg (readsAround_abs hzero))
    hshortest.coefficient_ne_zero hnatural
  rw [intText_eq_signed hi hzero, render_of_finite (isFinite_of_toRat hzero), hmagnitude,
    ← hspelled]
  dsimp only
  split_ifs
  · exact List.cons_inj_right '-'
  · exact Iff.rfl

theorem isWrittenOut_iff (h : (Number.float x).IsInteger i) (hzero : x.toRat ≠ 0) :
    x.IsWrittenOut ↔ x.shortest.toRat ≠ |(i : ℚ)| := by
  constructor
  · rintro ⟨-, j, d, hj, hd, hne⟩
    have hsame : i = j := Number.int.inj (h.normalize.symm.trans hj.normalize)
    rwa [hsame, ← hd.unique hzero]
  · intro hne
    exact ⟨hzero, i, x.shortest, h, hasShortest_shortest hzero, hne⟩

theorem toRat_of_isInteger (h : (Number.float x).IsInteger i) :
    x.isFinite = true ∧ x.toRat = i ∧ |i| < 10 ^ 21 := by
  rcases h with h | ⟨hvalue, hsmall⟩
  · cases h
  · rw [Number.toRat?] at hvalue
    split_ifs at hvalue with hfinite
    exact ⟨hfinite, Option.some.inj hvalue, hsmall⟩

theorem normalize_of_not_isInteger (h : ¬ ∃ i, (Number.float x).IsInteger i) :
    (Number.float x).normalize = .float x := by
  cases x with
  | finite negative exponent fraction =>
    have hvalue : (Number.float (finite negative exponent fraction)).toRat?.isSome = true := rfl
    rcases Number.normalize_cases hvalue with hinteger | ⟨y, heq, -, hnormal⟩
    · exact absurd hinteger h
    · cases heq
      exact hnormal
  | _ => rfl

/-- What is written out is no less than `2 ^ 53` in magnitude. -/
theorem IsWrittenOut.le_abs (hwritten : x.IsWrittenOut) (h : (Number.float x).IsInteger i) :
    2 ^ 53 ≤ |i| := by
  have hzero := hwritten.1
  obtain ⟨-, hi, -⟩ := toRat_of_isInteger h
  by_contra hsmall
  have hmagnitude : x.abs.toRat = (i.natAbs : ℚ) := by
    rw [toRat_abs, hi, Nat.cast_natAbs, Int.cast_abs]
  have hnatural : i.natAbs < 2 ^ 53 := by
    rw [not_le, Int.abs_eq_natAbs] at hsmall
    exact_mod_cast hsmall
  refine (isWrittenOut_iff h hzero).mp hwritten ?_
  rw [(hasShortest_shortest hzero).toRat_eq_of_lt hzero hmagnitude hnatural,
    Nat.cast_natAbs, Int.cast_abs]

theorem not_isWrittenOut (h : ¬ ∃ i, (Number.float x).IsInteger i) : ¬ x.IsWrittenOut := by
  rintro ⟨-, i, d, hi, -⟩
  exact h ⟨i, hi⟩

/-- The text of a number in expressions is the one of the layout, unless the number is written
out. -/
theorem textChars_eq_render_iff (hzero : ∀ negative, x ≠ .zero negative) :
    (Number.float x).textChars = Layout.expression.render x ↔ ¬ x.IsWrittenOut := by
  by_cases hinteger : ∃ i, (Number.float x).IsInteger i
  · obtain ⟨i, hi⟩ := hinteger
    obtain ⟨hfinite, hvalue, hsmall⟩ := toRat_of_isInteger hi
    have hnonzero := toRat_ne_zero hfinite hzero
    rw [Number.textChars, hi.normalize, isWrittenOut_iff hi hnonzero, not_not]
    exact intText_eq_render_iff hvalue hnonzero hsmall
  · rw [Number.textChars, normalize_of_not_isInteger hinteger]
    exact iff_of_true rfl (not_isWrittenOut hinteger)

end WrittenOut

end Binary64

theorem numberText_float (x : Binary64) :
    (Data.num (.float x)).numberText = .ok (String.ofList (Number.float x).textChars) :=
  rfl

open Binary64 in
/-- Every number has one text in the runtime of expressions. In expressions it is written with this
text, unless it is written out; then it is written with all the digits of its integer, which is no
less than `2 ^ 53` in magnitude. -/
theorem numberText_runtime (x : Binary64) :
    ∃ text, (∀ s, x.IsRuntimeText s ↔ s = text) ∧
      ((Data.num (.float x)).numberText = .ok (String.ofList text) ↔ ¬ x.IsWrittenOut) ∧
      (x.IsWrittenOut → ∃ i : ℤ, (Number.float x).IsInteger i ∧ 2 ^ 53 ≤ |i| ∧
        (Data.num (.float x)).numberText = .ok (String.ofList (Number.intText i))) := by
  have hsame (text : List Char) : (Data.num (.float x)).numberText = .ok (String.ofList text) ↔
      (Number.float x).textChars = text := by
    rw [numberText_float, Except.ok.injEq]
    exact ⟨fun h ↦ String.ofList_injective h, congrArg String.ofList⟩
  have hinteger (hwritten : x.IsWrittenOut) : ∃ i : ℤ, (Number.float x).IsInteger i ∧ 2 ^ 53 ≤ |i| ∧
      (Data.num (.float x)).numberText = .ok (String.ofList (Number.intText i)) := by
    obtain ⟨i, d, hi, -⟩ := hwritten.2
    refine ⟨i, hi, hwritten.le_abs hi, (hsame _).mpr ?_⟩
    rw [Number.textChars, hi.normalize]
  by_cases hzero : ∃ negative, x = .zero negative
  · obtain ⟨negative, rfl⟩ := hzero
    refine ⟨['0'], fun s ↦ isRuntimeText_zero_iff, ?_, hinteger⟩
    rw [hsame]
    exact iff_of_true (text_of_zero rfl (toRat_zero negative)) fun h ↦ h.1 (toRat_zero negative)
  · rw [not_exists] at hzero
    refine ⟨Layout.expression.render x, fun s ↦ isRuntimeText_iff hzero, ?_, hinteger⟩
    rw [hsame, textChars_eq_render_iff hzero]

/-- The number `2 ^ 60`, which the runtime writes with zeros for its last digits. -/
def quintillion : Binary64 :=
  .ofUnits false (1152921504606846976 * Binary64.unitsPerOne) 1

/-- A number that is written out has another text than in the runtime. -/
theorem numberText_writtenOut : quintillion.IsRuntimeText "1152921504606847000".toList ∧
    (Data.num (.float quintillion)).numberText = .ok "1152921504606846976" ∧
      ¬ ∀ s, quintillion.IsRuntimeText s →
        (Data.num (.float quintillion)).numberText = .ok (String.ofList s) := by
  have hpositive : 0 < quintillion.toRat := by decide +kernel
  have hruntime : quintillion.IsRuntimeText "1152921504606847000".toList :=
    (Binary64.isRuntimeText_iff_of_pos hpositive).mpr (by decide +kernel)
  have htext : (Data.num (.float quintillion)).numberText = .ok "1152921504606846976" := by
    decide +kernel
  refine ⟨hruntime, htext, fun hall ↦ ?_⟩
  have hsame := hall _ hruntime
  rw [htext] at hsame
  exact absurd hsame (by decide)

end Motion
